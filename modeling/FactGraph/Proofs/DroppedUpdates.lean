import FactGraph.Proofs.OrderIndependence

/-!
# Updates that are dropped

The results of a pass are folded one after the other, and an update needs a node to change.  The node
may be stored, or an earlier write of the same commit may have seen it.  If neither is the case the
update is DROPPED: the commit goes on, and all that is left of the update is that it is counted.

`Write.Lands` says which updates find their nodes, from the list of writes alone.  Those that do are
folded into their nodes, the others are the ones that are counted, and they change nothing
(`updates_of_commit`).

That a node is there when the commit is done does not help an update which came before it.  The
observation of another result may bring the node later in the same commit, and then the node is stored
without the update (`update_lost_in_commit`).  Edges fare better, since they are judged when all nodes
are written.
-/

namespace FactGraph

open Session

/-! ## 1. Writes that find their nodes -/

namespace Write

variable {μ : Type}

/-- A write has seen a node. -/
def Sees (id : String) : Write μ → Prop
  | .observe seen => seen.id = id
  | .patch _ _ => False

instance decidableSees (id : String) (w : Write μ) : Decidable (w.Sees id) :=
  match w with
  | .observe seen => inferInstanceAs (Decidable (seen.id = id))
  | .patch _ _ => inferInstanceAs (Decidable False)

/-- A write that comes after some others finds what it needs.  An observation needs nothing; an update
needs a node that is stored, or that an earlier write has seen. -/
def Lands (s : Store μ) (earlier : List (Write μ)) : Write μ → Prop
  | .observe _ => True
  | .patch target _ => s.contains target = true ∨ ∃ w ∈ earlier, w.Sees target

instance decidableLands (s : Store μ) (earlier : List (Write μ)) (w : Write μ) :
    Decidable (w.Lands s earlier) :=
  match w with
  | .observe _ => inferInstanceAs (Decidable True)
  | .patch target _ =>
    inferInstanceAs (Decidable (s.contains target = true ∨ ∃ w ∈ earlier, w.Sees target))

/-- Writes in order, each with those before it. -/
def trail (earlier : List (Write μ)) : List (Write μ) → List (List (Write μ) × Write μ)
  | [] => []
  | w :: rest => (earlier, w) :: trail (earlier ++ [w]) rest

/-- The writes that find what they need, in order. -/
def landed (s : Store μ) (ws : List (Write μ)) : List (Write μ) :=
  ((trail [] ws).filter fun step => step.2.Lands s step.1).map Prod.snd

/-- The writes that do not, in order. -/
def dropped (s : Store μ) (ws : List (Write μ)) : List (Write μ) :=
  ((trail [] ws).filter fun step => ¬ step.2.Lands s step.1).map Prod.snd

theorem trail_concat (earlier ws : List (Write μ)) (w : Write μ) :
    trail earlier (ws ++ [w]) = trail earlier ws ++ [(earlier ++ ws, w)] := by
  induction ws generalizing earlier with
  | nil => simp [trail]
  | cons v rest ih => simp [trail, ih]

theorem mem_trail {ws earlier : List (Write μ)} {w : Write μ} :
    (earlier, w) ∈ trail [] ws ↔ ∃ later, ws = earlier ++ w :: later := by
  induction ws using List.reverseRecOn with
  | nil => simp [trail]
  | append_singleton ws v ih =>
    rw [trail_concat, List.mem_append, ih, List.mem_singleton]
    constructor
    · rintro (⟨later, rfl⟩ | heq)
      · exact ⟨later ++ [v], by simp⟩
      · cases heq
        exact ⟨[], rfl⟩
    · rintro ⟨later, hsplit⟩
      induction later using List.reverseRecOn with
      | nil =>
        obtain ⟨rfl, hlast⟩ := List.append_inj' hsplit rfl
        cases hlast
        exact .inr rfl
      | append_singleton later u _ =>
        refine .inl ⟨later, ?_⟩
        rw [← List.cons_append, ← List.append_assoc] at hsplit
        exact (List.append_inj' hsplit rfl).1

theorem landed_concat (s : Store μ) (ws : List (Write μ)) (w : Write μ) :
    landed s (ws ++ [w]) = landed s ws ++ if w.Lands s ws then [w] else [] := by
  unfold landed
  rw [trail_concat, List.filter_append, List.map_append, List.nil_append]
  split
  · next h => simp [h]
  · next h => simp [h]

theorem dropped_concat (s : Store μ) (ws : List (Write μ)) (w : Write μ) :
    dropped s (ws ++ [w]) = dropped s ws ++ if w.Lands s ws then [] else [w] := by
  unfold dropped
  rw [trail_concat, List.filter_append, List.map_append, List.nil_append]
  split
  · next h => simp [h]
  · next h => simp [h]

theorem mem_landed {s : Store μ} {ws : List (Write μ)} {w : Write μ} :
    w ∈ landed s ws ↔ ∃ earlier later, ws = earlier ++ w :: later ∧ w.Lands s earlier := by
  unfold landed
  constructor
  · intro h
    obtain ⟨⟨earlier, v⟩, hmem, rfl⟩ := List.mem_map.mp h
    obtain ⟨htrail, hlands⟩ := List.mem_filter.mp hmem
    obtain ⟨later, hsplit⟩ := mem_trail.mp htrail
    exact ⟨earlier, later, hsplit, of_decide_eq_true hlands⟩
  · rintro ⟨earlier, later, hsplit, hlands⟩
    refine List.mem_map.mpr ⟨(earlier, w), List.mem_filter.mpr ⟨mem_trail.mpr ⟨later, hsplit⟩, ?_⟩, rfl⟩
    exact decide_eq_true hlands

/-! ## 2. Nodes that stand -/

variable [Measure μ]

/-- After a write a node stands if it stood, or if the write has seen it. -/
theorem isSome_onto (id : String) (o : Option (Node μ)) (w : Write μ) :
    (w.onto id o).isSome = true ↔ o.isSome = true ∨ w.Sees id := by
  cases w with
  | observe seen =>
    simp only [onto, Sees]
    split
    · next hid => simp [hid]
    · next hid => simp [hid]
  | patch target changes =>
    simp only [onto, Sees, or_false]
    split
    · rw [Option.isSome_map]
    · rfl

theorem isSome_foldl_onto_iff (id : String) (ws : List (Write μ)) (o : Option (Node μ)) :
    (ws.foldl (onto id) o).isSome = true ↔ o.isSome = true ∨ ∃ w ∈ ws, w.Sees id := by
  induction ws generalizing o with
  | nil => simp
  | cons w rest ih => rw [List.foldl_cons, ih, isSome_onto, List.exists_mem_cons_iff, or_assoc]

/-- An update lands if and only if its node stands. -/
theorem lands_patch_iff {s : Store μ} {earlier : List (Write μ)} {target : String}
    {changes : Patch μ} :
    (patch target changes).Lands s earlier ↔
      (earlier.foldl (onto target) (s.node? target)).isSome = true := by
  rw [isSome_foldl_onto_iff, ← Store.contains_eq_isSome]
  rfl

/-- A write that does not land does nothing. -/
theorem onto_of_not_lands {s : Store μ} {earlier : List (Write μ)} {w : Write μ}
    (h : ¬ w.Lands s earlier) (id : String) :
    w.onto id (earlier.foldl (onto id) (s.node? id)) = earlier.foldl (onto id) (s.node? id) := by
  cases w with
  | observe seen => exact absurd trivial h
  | patch target changes =>
    simp only [onto]
    split
    · next hid =>
      subst hid
      rw [lands_patch_iff, Option.not_isSome_iff_eq_none] at h
      rw [h]
      rfl
    · rfl

/-- **Only the writes that land show.** -/
theorem foldl_onto_landed (s : Store μ) (ws : List (Write μ)) (id : String) :
    (landed s ws).foldl (onto id) (s.node? id) = ws.foldl (onto id) (s.node? id) := by
  induction ws using List.reverseRecOn with
  | nil => rfl
  | append_singleton ws w ih =>
    rw [landed_concat, List.foldl_append, List.foldl_append, ih]
    split
    · rfl
    · next h => exact (onto_of_not_lands h id).symm

end Write

/-! ## 3. Counting what is dropped -/

namespace Commit

variable {μ : Type} [Measure μ] {s : Store μ} {results : List (Completion μ)}

/-- A write that finds no node is counted, if nodes stand as earlier writes have left them. -/
theorem missing_foldWrite {staged : Staging μ} {earlier : List (Write μ)}
    (hstands : ∀ id, standing s staged id = earlier.foldl (Write.onto id) (s.node? id))
    (w : Write μ) :
    (foldWrite s staged w).missing = staged.missing + if w.Lands s earlier then 0 else 1 := by
  cases w with
  | observe seen =>
    show (foldObserved s staged seen).missing = _
    have hlands : (Write.observe seen).Lands s earlier := trivial
    rw [if_pos hlands, foldObserved]
    cases standing s staged seen.id with
    | some n => rfl
    | none => rfl
  | patch target changes =>
    show (foldPatch s staged (target, changes)).missing = _
    have hlands : (Write.patch target changes).Lands s earlier ↔
        (standing s staged target).isSome = true := by
      rw [hstands]
      exact Write.lands_patch_iff
    rw [foldPatch]
    cases hstanding : standing s staged target with
    | some n =>
      rw [hstanding] at hlands
      rw [if_pos (hlands.mpr rfl)]
      rfl
    | none =>
      rw [hstanding] at hlands
      rw [if_neg fun h => Bool.noConfusion (hlands.mp h)]

/-- **A commit counts the updates that are dropped.** -/
theorem missing_folded (s : Store μ) (results : List (Completion μ)) :
    (folded s results).missing = (Write.dropped s (writes results)).length := by
  rw [folded_eq_foldl]
  induction writes results using List.reverseRecOn with
  | nil => rfl
  | append_singleton ws w ih =>
    have hstands : ∀ id, standing s (ws.foldl (foldWrite s) {}) id =
        ws.foldl (Write.onto id) (s.node? id) := fun id => standing_foldl s ws {} id
    rw [List.foldl_append, List.foldl_cons, List.foldl_nil, missing_foldWrite hstands, ih,
      Write.dropped_concat, List.length_append]
    split
    · rfl
    · rfl

/-- **An update is folded into its node**: the earlier writes had left a node, the update changed it,
and the stored node is what the later writes made of that. -/
def FoldsIn (s s' : Store μ) (earlier : List (Write μ)) (target : String) (changes : Patch μ)
    (later : List (Write μ)) : Prop :=
  ∃ n n', earlier.foldl (Write.onto target) (s.node? target) = some n ∧
    later.foldl (Write.onto target) (some (changes.apply n)) = some n' ∧
    s'.node? target = some n'.stored

variable {number : Nat} {earlier later : List (Write μ)} {target : String} {changes : Patch μ}

/-- The node of an update after a commit. -/
theorem node?_committed_of_split (hs : s.Keyed)
    (hsplit : writes results = earlier ++ .patch target changes :: later) :
    (committed s results number).node? target =
      (later.foldl (Write.onto target)
        ((earlier.foldl (Write.onto target) (s.node? target)).map changes.apply)).map Node.stored := by
  have hwrite : ∃ w ∈ writes results, w.target = target :=
    ⟨.patch target changes, by simp [hsplit], rfl⟩
  rw [node?_committed, node?_written_of_target hs hwrite, viewed, hsplit, List.foldl_append,
    List.foldl_cons]
  simp only [Write.onto, if_true]

theorem foldsIn_iff_lands (hs : s.Keyed)
    (hsplit : writes results = earlier ++ .patch target changes :: later) :
    FoldsIn s (committed s results number) earlier target changes later ↔
      (Write.patch target changes).Lands s earlier := by
  rw [FoldsIn, node?_committed_of_split hs hsplit, Write.lands_patch_iff]
  constructor
  · rintro ⟨n, -, hn, -⟩
    rw [hn]
    rfl
  · intro h
    obtain ⟨n, hn⟩ := Option.isSome_iff_exists.mp h
    have hstays : (later.foldl (Write.onto target) (some (changes.apply n))).isSome = true :=
      Write.isSome_foldl_onto rfl
    obtain ⟨n', hn'⟩ := Option.isSome_iff_exists.mp hstays
    refine ⟨n, n', hn, hn', ?_⟩
    rw [hn, Option.map_some, hn', Option.map_some]

/-- The node of an update that is dropped is what later writes make, from nothing. -/
theorem node?_committed_of_not_lands (hs : s.Keyed)
    (hsplit : writes results = earlier ++ .patch target changes :: later)
    (h : ¬ (Write.patch target changes).Lands s earlier) :
    (committed s results number).node? target =
      (later.foldl (Write.onto target) none).map Node.stored := by
  rw [Write.lands_patch_iff, Option.not_isSome_iff_eq_none] at h
  rw [node?_committed_of_split hs hsplit, h, Option.map_none]

end Commit

/-! ## 4. The updates of a commit -/

section Updates

variable {μ : Type} [Measure μ]

/-- **What becomes of the updates of a commit.**  An update is folded into its node if and only if the
node was stored, or an earlier write of the commit has seen it.  Any other update leaves no trace: its
node is what the later writes make from nothing, and there is one if and only if one of them has seen
it.  The commit reports the number of these updates. -/
theorem updates_of_commit {results : List (Completion μ)} {number size : Nat} {σ σ' : State μ}
    {summary : CommitSummary} (hs : σ.store.Keyed)
    (h : Returns (Commit.pass results number size) σ summary σ') :
    (∀ earlier target changes later,
      Commit.writes results = earlier ++ .patch target changes :: later →
      (Commit.FoldsIn σ.store σ'.store earlier target changes later ↔
        σ.store.contains target = true ∨ ∃ w ∈ earlier, w.Sees target) ∧
      (¬ (σ.store.contains target = true ∨ ∃ w ∈ earlier, w.Sees target) →
        σ'.store.node? target = (later.foldl (Write.onto target) none).map Node.stored ∧
        (σ'.store.contains target = true ↔ ∃ w ∈ later, w.Sees target))) ∧
    summary.targetsMissing = (Write.dropped σ.store (Commit.writes results)).length := by
  obtain ⟨rfl, hstore⟩ := Commit.of_returns_pass h
  rw [hstore]
  refine ⟨fun earlier target changes later hsplit => ?_, Commit.missing_folded _ _⟩
  refine ⟨Commit.foldsIn_iff_lands hs hsplit, fun hdropped => ?_⟩
  have hnode : (Commit.committed σ.store results number).node? target = _ :=
    Commit.node?_committed_of_not_lands hs hsplit hdropped
  refine ⟨hnode, ?_⟩
  rw [Store.contains_eq_isSome, hnode, Option.isSome_map, Write.isSome_foldl_onto_iff]
  simp

end Updates

/-- One contribution to the size of something. -/
def oneSize : Patch Float := { sums := Table.insert ∅ "size" ⟨1.5, 1⟩ }

/-- Adds to the size of a note, whether or not there is a note. -/
def sizing (position : Nat) (analyzer : String) : Completion Float where
  position := position
  pair := ⟨analyzer, "desk"⟩
  outcome := .ran
  findings := { patches := Table.insert ∅ "note" oneSize }
  message := none

/-- Has seen the note. -/
def sighting : Completion Float where
  position := 1
  pair := ⟨"sighting", "desk"⟩
  outcome := .ran
  findings := Findings.observe {} (Node.new "note" "file")
  message := none

/-- Storage with the desk that all of them look at, and without the note. -/
def bareDesk : State Float := { store := Store.empty.mergeNodes [Node.new "desk" "folder"] }

theorem exists_returns_bareDesk (results : List (Completion Float))
    (h : ∀ c ∈ results, c.pair.node = "desk") : ∃ summary σ',
    Returns (Commit.pass results 1 10) bareDesk summary σ' := by
  have hs : bareDesk.store.Keyed := Store.keyed_empty.mergeNodes _
  have hdesk : bareDesk.store.contains "desk" = true := by decide +kernel
  obtain ⟨σ', hreturns⟩ := Commit.exists_returns_pass (fun _ _ _ => rfl) hs
    (fun c hc => (h c hc).symm ▸ hdesk) 1 10
  exact ⟨_, σ', hreturns⟩

/-- The note is sized, then seen, then sized again.  The first size is dropped, and the other one is
folded into the note. -/
theorem updates_of_commit_sighting : ∃ summary σ',
    Returns (Commit.pass [sizing 0 "forecast", sighting, sizing 2 "recount"] 1 10) bareDesk summary σ' ∧
    ¬ Commit.FoldsIn bareDesk.store σ'.store [] "note" oneSize
      [.observe (Node.new "note" "file"), .patch "note" oneSize] ∧
    Commit.FoldsIn bareDesk.store σ'.store
      [.patch "note" oneSize, .observe (Node.new "note" "file")] "note" oneSize [] ∧
    summary.targetsMissing = 1 := by
  have hsorted : [sizing 0 "forecast", sighting, sizing 2 "recount"].mergeSort Commit.before = _ :=
    List.mergeSort_of_pairwise (by decide +kernel)
  have hwrites : Commit.writes [sizing 0 "forecast", sighting, sizing 2 "recount"] =
      [.patch "note" oneSize, .observe (Node.new "note" "file"), .patch "note" oneSize] := by
    rw [Commit.writes, hsorted]
    rfl
  obtain ⟨summary, σ', hreturns⟩ := exists_returns_bareDesk
    [sizing 0 "forecast", sighting, sizing 2 "recount"] (by simp [sizing, sighting])
  obtain ⟨hupdates, hmissing⟩ := updates_of_commit (Store.keyed_empty.mergeNodes _) hreturns
  rw [hwrites] at hupdates hmissing
  have hfirst := (hupdates [] "note" oneSize _ rfl).1
  have hlast := (hupdates [.patch "note" oneSize, .observe (Node.new "note" "file")] "note" oneSize []
    rfl).1
  refine ⟨summary, σ', hreturns, ?_, ?_, hmissing.trans (by decide +kernel)⟩
  · rw [hfirst]
    decide +kernel
  · rw [hlast]
    decide +kernel

/-- **An update can be lost.**  A commit goes through, and a node that it was asked to update is there
afterwards, but the update is not: the node was seen by a result that comes later. -/
theorem update_lost_in_commit : ∃ summary σ',
    Returns (Commit.pass [sizing 0 "forecast", sighting] 1 10) bareDesk summary σ' ∧
    (sizing 0 "forecast").findings.patches.get? "note" = some oneSize ∧
    (σ'.store.node? "note").map (·.metrics.contains "size") = some false ∧
    summary.targetsMissing = 1 := by
  have hs : bareDesk.store.Keyed := Store.keyed_empty.mergeNodes _
  have hsorted : [sizing 0 "forecast", sighting].mergeSort Commit.before = _ :=
    List.mergeSort_of_pairwise (by decide +kernel)
  have hwrites : Commit.writes [sizing 0 "forecast", sighting] =
      [] ++ .patch "note" oneSize :: [.observe (Node.new "note" "file")] := by
    rw [Commit.writes, hsorted]
    rfl
  obtain ⟨summary, σ', hreturns⟩ := exists_returns_bareDesk
    [sizing 0 "forecast", sighting] (by simp [sizing, sighting])
  obtain ⟨rfl, hstore⟩ := Commit.of_returns_pass hreturns
  refine ⟨_, σ', hreturns, rfl, ?_, ?_⟩
  · rw [hstore, Commit.node?_committed_of_not_lands hs hwrites (by decide +kernel)]
    rfl
  · show (Commit.folded bareDesk.store [sizing 0 "forecast", sighting]).missing = 1
    rw [Commit.missing_folded, hwrites]
    decide +kernel

end FactGraph
