import FactGraph.Proofs.Batches
import FactGraph.Proofs.CommittedEdges

/-!
# Repeated edges

An edge may be asked for many times: twice in one batch, in batch after batch, with other metadata,
after its ends have been written again.  The FIRST time it is stored, and no other time does anything.

What makes this easy to say of a whole run is that a run can be flattened.  As long as nothing is
deleted, the edges of a store are what one batch would have made of them, namely the batch of
everything that was asked for and not refused, in its order (`Store.edges_foldl_after`); and the
counts that the calls report add up to the count of that batch (`Store.reported_eq`).  Where the run is
cut into calls makes no difference, so neither does where a batch is cut into two.

`edges_of_additions` reads the rest off the one batch: which metadata is stored, how many edges are
new, and which call is told so.
-/

namespace FactGraph

open Std

namespace Store

variable {μ : Type} {s : Store μ}

/-! ## 1. One batch -/

theorem holdsEnds_addEdges (s : Store μ) (batch : List Edge) (e : Edge) :
    (s.addEdges batch).1.holdsEnds e = s.holdsEnds e := by
  rw [holdsEnds, contains_addEdges, contains_addEdges]
  rfl

/-- **A batch may be cut anywhere.**  It is written if and only if its front is and then its back is;
the store is the same, and the counts add up. -/
theorem createEdges_append_eq_ok_iff (s : Store μ) (front back : List Edge) (s' : Store μ) (n : Nat) :
    s.createEdges (front ++ back) = .ok (s', n) ↔
      ∃ middle m k, s.createEdges front = .ok (middle, m) ∧ middle.createEdges back = .ok (s', k) ∧
        n = m + k := by
  simp only [createEdges_eq_ok_iff, List.forall_mem_append, addEdges_append]
  constructor
  · rintro ⟨⟨hfront, hback⟩, heq⟩
    obtain ⟨rfl, rfl⟩ := Prod.mk.inj heq
    exact ⟨_, _, _, ⟨hfront, rfl⟩, ⟨by simpa only [holdsEnds_addEdges] using hback, rfl⟩, rfl⟩
  · rintro ⟨middle, m, k, ⟨hfront, hm⟩, ⟨hback, hk⟩, rfl⟩
    obtain ⟨rfl, rfl⟩ := Prod.mk.inj hm
    obtain ⟨rfl, rfl⟩ := Prod.mk.inj hk
    exact ⟨⟨hfront, by simpa only [holdsEnds_addEdges] using hback⟩, rfl⟩

/-- Edges that are stored are not written again. -/
theorem addEdges_eq_self {batch : List Edge} (h : ∀ e ∈ batch, s.edges.contains e.key = true) :
    s.addEdges batch = (s, 0) := by
  induction batch with
  | nil => rfl
  | cons e rest ih =>
    obtain ⟨he, hrest⟩ := List.forall_mem_cons.mp h
    have hthere : s.addEdge e = (s, 0) := if_pos he
    rw [addEdges, hthere, ih hrest]
    rfl

/-- **The second time nothing happens.** -/
theorem createEdges_again {batch : List Edge} {s' : Store μ} {n : Nat}
    (h : s.createEdges batch = .ok (s', n)) : s'.createEdges batch = .ok (s', 0) := by
  obtain ⟨hends, heq⟩ := (s.createEdges_eq_ok_iff batch _).mp h
  obtain ⟨rfl, rfl⟩ := Prod.mk.inj heq
  rw [createEdges_eq_ok_iff]
  refine ⟨by simpa only [holdsEnds_addEdges] using hends, (addEdges_eq_self fun e he => ?_).symm⟩
  exact (contains_edges_addEdges s batch e.key).mpr (.inr ⟨e, he, rfl⟩)

theorem snd_addEdge_eq_one (s : Store μ) (e : Edge) :
    ((s.addEdge e).2 == 1) = !s.edges.contains e.key := by
  unfold addEdge
  cases s.edges.contains e.key <;> rfl

/-- A single edge is written if its ends are stored, and told new if it is. -/
theorem createEdge_eq_ok_iff (s : Store μ) (e : Edge) (s' : Store μ) (new : Bool) :
    s.createEdge e = .ok (s', new) ↔
      s.holdsEnds e = true ∧ s' = (s.addEdge e).1 ∧ new = !s.edges.contains e.key := by
  constructor
  · intro h
    cases hr : s.createEdges [e] with
    | error err =>
      rw [createEdge, hr] at h
      cases h
    | ok r =>
      rw [createEdge, hr] at h
      cases h
      obtain ⟨hends, rfl⟩ := (s.createEdges_eq_ok_iff [e] r).mp hr
      exact ⟨hends e List.mem_cons_self, rfl, s.snd_addEdge_eq_one e⟩
  · rintro ⟨hends, rfl, rfl⟩
    rw [createEdge, createEdges_eq s (List.forall_mem_singleton.mpr hends), ← s.snd_addEdge_eq_one e]
    rfl

/-- Being told new counts as one new edge. -/
theorem elim_createEdge (s : Store μ) (e : Edge) :
    ((s.createEdge e).toOption.elim 0 fun answer => answer.2.toNat) =
      (s.createEdges [e]).toOption.elim 0 fun answer => answer.2 := by
  rw [createEdge]
  cases hr : s.createEdges [e] with
  | error err => rfl
  | ok r =>
    obtain ⟨-, rfl⟩ := (s.createEdges_eq_ok_iff [e] r).mp hr
    show ((s.addEdge e).2 == 1).toNat = (s.addEdge e).2
    unfold addEdge
    split_ifs <;> rfl

/-! ## 2. Counting -/

theorem toFinset_keys_addEdges (s : Store μ) (batch : List Edge) :
    (s.addEdges batch).1.edges.keys.toFinset =
      (batch.map Edge.key).toFinset ∪ s.edges.keys.toFinset := by
  ext key
  simp only [Finset.mem_union, List.mem_toFinset, Table.mem_keys, contains_edges_addEdges,
    List.mem_map]
  exact or_comm

/-- The count of a batch is the number of different edges in it that were not there. -/
theorem snd_addEdges_eq_card (s : Store μ) (batch : List Edge) :
    (s.addEdges batch).2 = ((batch.map Edge.key).toFinset \ s.edges.keys.toFinset).card := by
  have hsize : ∀ t : Table EdgeKey (Option Value), t.keys.toFinset.card = t.size := by
    intro t
    rw [List.toFinset_card_of_nodup t.nodup_keys, Table.keys, List.length_map, Table.size]
  have hunion := Finset.card_sdiff_add_card (batch.map Edge.key).toFinset s.edges.keys.toFinset
  rw [← toFinset_keys_addEdges, hsize, hsize, size_addEdges, Nat.add_comm s.edges.size] at hunion
  exact (Nat.add_right_cancel hunion).symm

theorem snd_addEdges_congr {t : Store μ} (h : s.edges = t.edges) (batch : List Edge) :
    (s.addEdges batch).2 = (t.addEdges batch).2 := by
  rw [snd_addEdges_eq_card, snd_addEdges_eq_card, h]

/-! ## 3. A run, flattened -/

/-- A change that removes no edge. -/
def Change.KeepsEdges : Change μ → Prop
  | .delete _ | .clear => False
  | _ => True

/-- The edges that a change asks for. -/
def Change.asked : Change μ → List Edge
  | .createEdge e => [e]
  | .createEdges batch => batch
  | _ => []

variable [Measure μ]

/-- The edges that an attempt asks for, if it does not fail. -/
def Attempt.taken (a : Attempt μ) (s : Store μ) : List Edge :=
  match a.outcome s with
  | .ok _ => a.change.asked
  | .error _ => []

/-- The number of new edges that an attempt is told; one edge that is told new counts one. -/
def Attempt.reported (a : Attempt μ) (s : Store μ) : Nat :=
  match a.fault, a.change with
  | none, .createEdge e => (s.createEdge e).toOption.elim 0 fun answer => answer.2.toNat
  | none, .createEdges batch => (s.createEdges batch).toOption.elim 0 fun answer => answer.2
  | _, _ => 0

/-- All edges that are asked for in a run and not refused. -/
def taken (s : Store μ) : List (Attempt μ) → List Edge
  | [] => []
  | a :: rest => a.taken s ++ (s.after a).taken rest

/-- The sum of what is reported in a run. -/
def reported (s : Store μ) : List (Attempt μ) → Nat
  | [] => 0
  | a :: rest => a.reported s + (s.after a).reported rest

theorem outcome_eq_ok_iff {a : Attempt μ} {s' : Store μ} :
    a.outcome s = .ok s' ↔ a.fault = none ∧ a.change.apply s = .ok s' := by
  unfold Attempt.outcome
  cases a.fault <;> simp

theorem edges_apply {c : Change μ} {s' : Store μ} (h : c.KeepsEdges) (hc : c.apply s = .ok s') :
    s'.edges = (s.addEdges c.asked).1.edges := by
  cases c with
  | mergeNode n => cases hc; rfl
  | mergeNodes batch => cases hc; exact edges_mergeNodes s batch
  | createEdge e => rw [((s.map_createEdges_eq_ok_iff [e] s').mp hc).2]; rfl
  | createEdges batch => rw [((s.map_createEdges_eq_ok_iff batch s').mp hc).2]; rfl
  | record rows => rw [eq_note_of_record hc]; rfl
  | resetLedger => cases hc; rfl
  | delete id => exact h.elim
  | clear => exact h.elim

/-- An attempt adds the edges that it takes. -/
theorem edges_after {a : Attempt μ} (h : a.change.KeepsEdges) :
    (s.after a).edges = (s.addEdges (a.taken s)).1.edges := by
  unfold Store.after Attempt.taken
  cases hout : a.outcome s with
  | error err => rfl
  | ok s' => exact edges_apply h (outcome_eq_ok_iff.mp hout).2

/-- A change that asks for edges is told how many of them are added. -/
theorem snd_addEdges_taken (s : Store μ) (c : Change μ)
    (hc : c.apply s = (s.createEdges c.asked).map (·.1)) :
    (s.addEdges (Attempt.taken ⟨c, none⟩ s)).2 =
      (s.createEdges c.asked).toOption.elim 0 fun answer => answer.2 := by
  unfold Attempt.taken Attempt.outcome
  dsimp only
  rw [hc]
  cases hr : s.createEdges c.asked with
  | error err => rfl
  | ok r =>
    obtain ⟨-, rfl⟩ := (s.createEdges_eq_ok_iff _ r).mp hr
    rfl

/-- An attempt reports the edges that it adds. -/
theorem reported_attempt (a : Attempt μ) (s : Store μ) :
    a.reported s = (s.addEdges (a.taken s)).2 := by
  obtain ⟨change, fault⟩ := a
  cases fault with
  | some err => rfl
  | none =>
    cases change with
    | createEdge e =>
      exact (s.elim_createEdge e).trans (s.snd_addEdges_taken (.createEdge e) rfl).symm
    | createEdges batch => exact (s.snd_addEdges_taken (.createEdges batch) rfl).symm
    | record rows =>
      unfold Attempt.taken
      split <;> rfl
    | _ => rfl

/-- **A run without deletions makes of the edges what one batch makes of them.** -/
theorem edges_foldl_after {attempts : List (Attempt μ)} (h : ∀ a ∈ attempts, a.change.KeepsEdges) :
    (attempts.foldl after s).edges = (s.addEdges (s.taken attempts)).1.edges := by
  induction attempts generalizing s with
  | nil => rfl
  | cons a rest ih =>
    obtain ⟨ha, hrest⟩ := List.forall_mem_cons.mp h
    rw [List.foldl_cons, ih hrest, taken, addEdges_append]
    exact edges_addEdges_congr (edges_after ha) _

/-- **The counts of its calls add up to the count of that batch.** -/
theorem reported_eq {attempts : List (Attempt μ)} (h : ∀ a ∈ attempts, a.change.KeepsEdges) :
    s.reported attempts = (s.addEdges (s.taken attempts)).2 := by
  induction attempts generalizing s with
  | nil => rfl
  | cons a rest ih =>
    obtain ⟨ha, hrest⟩ := List.forall_mem_cons.mp h
    rw [reported, ih hrest, reported_attempt, taken, addEdges_append,
      snd_addEdges_congr (edges_after ha)]

/-! ## 4. The first time counts -/

/-- What a run does to the edges of a store `s`, and what the store at its end does with more of
them. -/
structure FirstCounts (s : Store μ) (attempts : List (Attempt μ)) : Prop where
  /-- An edge that is stored at any time of the run is the same at its end. -/
  kept : ∀ before later, attempts = before ++ later → ∀ key metadata,
    (before.foldl after s).edges.get? key = some metadata →
      (attempts.foldl after s).edges.get? key = some metadata
  /-- An edge that was not there has the metadata with which it was first asked for. -/
  first : ∀ key, (attempts.foldl after s).edges.get? key =
    (s.edges.get? key).or
      (((s.taken attempts).find? (·.key = key)).map fun e => e.metadata.map Value.stored)
  /-- The reported counts add up to the growth, -/
  grown : (attempts.foldl after s).statistics.edges = s.statistics.edges + s.reported attempts
  /-- which is the number of different edges that were asked for and not there. -/
  distinct : s.reported attempts =
    (((s.taken attempts).map Edge.key).toFinset \ s.edges.keys.toFinset).card
  /-- A single edge is told new if and only if it was not there and is asked for the first time. -/
  single : ∀ e new, (∃ s', (attempts.foldl after s).createEdge e = .ok (s', new)) ↔
    (attempts.foldl after s).holdsEnds e = true ∧
      (new = true ↔ s.edges.contains e.key = false ∧ ∀ e' ∈ s.taken attempts, e'.key ≠ e.key)
  /-- A batch that is written may be cut anywhere, -/
  split : ∀ front back s' n, (attempts.foldl after s).createEdges (front ++ back) = .ok (s', n) ↔
    ∃ middle m k, (attempts.foldl after s).createEdges front = .ok (middle, m) ∧
      middle.createEdges back = .ok (s', k) ∧ n = m + k
  /-- and the second time it does nothing. -/
  again : ∀ batch s' n, (attempts.foldl after s).createEdges batch = .ok (s', n) →
    s'.createEdges batch = .ok (s', 0)

/-- **An edge is stored the first time it is asked for, and no other time does anything.**  This holds
of every store, whatever its history, and of every run of attempts that deletes nothing, whatever else
it writes and whichever of its attempts fail; and so of each part of it, up to any of its calls. -/
theorem edges_of_additions (s : Store μ) {attempts : List (Attempt μ)}
    (h : ∀ a ∈ attempts, a.change.KeepsEdges) : s.FirstCounts attempts where
  kept := by
    rintro before later rfl key metadata hkey
    rw [List.foldl_append, edges_foldl_after fun a ha => h a (List.mem_append_right _ ha)]
    exact get?_edges_addEdges _ _ hkey
  first key := by
    rw [edges_foldl_after h, get?_addEdges]
  grown := by
    rw [statistics, statistics, reported_eq h, edges_foldl_after h]
    exact size_addEdges s (s.taken attempts)
  distinct := by
    rw [reported_eq h, snd_addEdges_eq_card]
  single e new := by
    have hfirst : (attempts.foldl after s).edges.contains e.key = false ↔
        s.edges.contains e.key = false ∧ ∀ e' ∈ s.taken attempts, e'.key ≠ e.key := by
      rw [edges_foldl_after h, ← Bool.not_eq_true, contains_edges_addEdges, not_or, Bool.not_eq_true]
      simp
    simp only [createEdge_eq_ok_iff, exists_and_left, exists_eq_left, ← hfirst]
    cases new <;> simp
  split := createEdges_append_eq_ok_iff _
  again _ _ _ := createEdges_again

/-- Four ways to ask for an edge from `a` to `b` more than once, among other things: too early, twice in
a batch, alone after `a` has been written again, and when storage fails. -/
def repeats : List (Attempt Float) :=
  [{ change := .createEdges [⟨"a", "b", "near", some (.int 0)⟩, ⟨"a", "c", "near", none⟩] },
   { change := .createEdges
      [⟨"a", "b", "near", some (.int 1)⟩, ⟨"b", "a", "near", none⟩, ⟨"a", "b", "near", some (.int 2)⟩] },
   { change := .mergeNode (Node.new "a" "directory") },
   { change := .createEdge ⟨"a", "b", "near", none⟩ },
   { change := .createEdge ⟨"a", "b", "far", none⟩, fault := some danglingRowError },
   { change := .mergeNodes [Node.new "c" "file"] },
   { change := .createEdges [⟨"a", "b", "near", some (.int 0)⟩, ⟨"a", "c", "near", none⟩] }]

/-- Three edges are new, `a` to `b` with the metadata of the first batch that was written; asked for
alone it is not told new, unlike the one that storage has lost. -/
theorem edges_of_repeats :
    (∀ a ∈ repeats, a.change.KeepsEdges) ∧
      (built (twoFiles ++ repeats)).edges.get? ⟨"a", "b", "near"⟩ = some (some (.int 1)) ∧
      (built (twoFiles ++ repeats)).statistics.edges = 3 ∧
      (∃ s', (built (twoFiles ++ repeats)).createEdge ⟨"a", "b", "near", none⟩ = .ok (s', false)) ∧
      ∃ s', (built (twoFiles ++ repeats)).createEdge ⟨"a", "b", "far", none⟩ = .ok (s', true) := by
  have hkeeps : ∀ a ∈ repeats, a.change.KeepsEdges := by simp [repeats, Change.KeepsEdges]
  have hrun := edges_of_additions (built twoFiles) hkeeps
  have hbuilt : built (twoFiles ++ repeats) = repeats.foldl after (built twoFiles) :=
    List.foldl_append
  rw [hbuilt]
  refine ⟨hkeeps, ?_, ?_, (hrun.single _ false).mpr ?_, (hrun.single _ true).mpr ?_⟩
  · rw [hrun.first]
    rfl
  · rw [hrun.grown]
    decide +kernel
  · decide +kernel
  · decide +kernel

end Store

end FactGraph
