import FactGraph.Proofs.DroppedUpdates
import FactGraph.Store.Record

/-!
# The last writer wins

What a commit makes of a node can be read off the list of its writes.  Results have places of their
own, so there is one order in which they are written (`Commit.Precedes`); an update which finds no
node is left out (`Write.landed`).  Of the writes that are left the LAST one decides: the last
observation gives the kind and the label, the last write of a property gives its value, and tags are
gathered from all of them (`Commit.LastWritten`).  Counters of sums are the exception.

A node that is written goes through storage, with all its properties, those that no write has touched
included.  Storage keeps a measured number as a text, and the number that is read from it need not be
the one that was written.  So the value of a property is the last one AS IT IS STORED, which for texts,
integers and truth values is the same (`Value.Lasting`) and for a measured number need not be
(`property_changed_in_commit`).
-/

namespace FactGraph

open Session

/-! ## 1. Values that storage keeps -/

/-- A value that storage does not change: if there are measured numbers inside, each is one that is
read as it was written. -/
inductive Value.Lasting : Value → Prop
  | null : Lasting .null
  | bool (b : Bool) : Lasting (.bool b)
  | int (n : Int) : Lasting (.int n)
  | float {x : Float} (h : Value.reread x = x) : Lasting (.float x)
  | str (text : String) : Lasting (.str text)
  | arr {items : List Value} (h : ∀ v ∈ items, Lasting v) : Lasting (.arr items)
  | obj {fields : List (String × Value)} (h : ∀ field ∈ fields, Lasting field.2) :
      Lasting (.obj fields)

namespace Value

theorem mapFloatItems_of_forall {f : Float → Float} {items : List Value}
    (h : ∀ v ∈ items, v.mapFloat f = v) : mapFloatItems f items = items := by
  induction items with
  | nil => rfl
  | cons v rest ih =>
    simp only [List.mem_cons, forall_eq_or_imp] at h
    rw [mapFloatItems, h.1, ih h.2]

theorem mapFloatFields_of_forall {f : Float → Float} {fields : List (String × Value)}
    (h : ∀ field ∈ fields, field.2.mapFloat f = field.2) : mapFloatFields f fields = fields := by
  induction fields with
  | nil => rfl
  | cons field rest ih =>
    obtain ⟨key, v⟩ := field
    simp only [List.mem_cons, forall_eq_or_imp] at h
    rw [mapFloatFields, h.1, ih h.2]

theorem Lasting.stored_eq {v : Value} (h : v.Lasting) : v.stored = v := by
  unfold stored
  induction h with
  | null => rfl
  | bool b => rfl
  | int n => rfl
  | float h => rw [mapFloat, h]
  | str text => rfl
  | arr _ ih => rw [mapFloat, mapFloatItems_of_forall ih]
  | obj _ ih => rw [mapFloat, mapFloatFields_of_forall ih]

end Value

/-! ## 2. What single writes say -/

namespace Write

variable {μ : Type}

/-- The node that a write has seen under an id. -/
def sight? (id : String) : Write μ → Option (Node μ)
  | .observe seen => if seen.id = id then some seen else none
  | .patch _ _ => none

/-- The value that a write gives to a property of a node. -/
def property? (id key : String) : Write μ → Option Value
  | .observe seen => if seen.id = id then seen.properties.get? key else none
  | .patch target changes => if target = id then changes.properties.get? key else none

/-- A property of a node is the counter of a sum to which a write adds. -/
def Tallies (id key : String) : Write μ → Prop
  | .observe _ => False
  | .patch target changes => target = id ∧ ∃ metric ∈ changes.sums.keys, Patch.counter metric = key

instance decidableTallies (id key : String) (w : Write μ) : Decidable (w.Tallies id key) :=
  match w with
  | .observe _ => inferInstanceAs (Decidable False)
  | .patch target changes =>
    inferInstanceAs (Decidable (target = id ∧ ∃ metric ∈ changes.sums.keys, Patch.counter metric = key))

instance decidableMarks (id tag : String) (w : Write μ) : Decidable (w.Marks id tag) :=
  match w with
  | .observe seen => inferInstanceAs (Decidable (seen.id = id ∧ seen.hasTag tag = true))
  | .patch target changes =>
    inferInstanceAs (Decidable (target = id ∧ changes.tags.contains tag = true))

end Write

/-- What an observation of a node replaces as a whole: its kind and its label. -/
def Node.face {μ : Type} (n : Node μ) : String × String := (n.kind, n.label)

namespace Patch

variable {μ : Type} [Measure μ]

theorem face_apply (p : Patch μ) (n : Node μ) : (p.apply n).face = n.face := by
  have hfold : ∀ (rows : List (String × Tally μ)) (n : Node μ),
      (rows.foldl (fun n row => addSum n row.1 row.2) n).face = n.face := by
    intro rows
    induction rows with
    | nil => exact fun _ => rfl
    | cons row rest ih => exact fun n => ih (addSum n row.1 row.2)
  exact hfold p.sums.rows _

/-- Sums set their counters, and no other property. -/
theorem get?_properties_foldl_addSum {key : String} (rows : List (String × Tally μ)) (n : Node μ)
    (hkey : ∀ row ∈ rows, counter row.1 ≠ key) :
    (rows.foldl (fun n row => addSum n row.1 row.2) n).properties.get? key =
      n.properties.get? key := by
  induction rows generalizing n with
  | nil => rfl
  | cons row rest ih =>
    simp only [List.mem_cons, forall_eq_or_imp] at hkey
    rw [List.foldl_cons, ih _ hkey.2, addSum, Table.get?_insert_of_ne _ _ hkey.1.symm]

theorem get?_properties_apply {p : Patch μ} {key : String} (n : Node μ)
    (hkey : ¬ ∃ metric ∈ p.sums.keys, counter metric = key) :
    (p.apply n).properties.get? key = (p.properties.get? key).or (n.properties.get? key) := by
  rw [apply, get?_properties_foldl_addSum, Table.get?_overlay]
  intro row hrow heq
  exact hkey ⟨row.1, List.mem_map_of_mem hrow, heq⟩

end Patch

/-! ## 3. Lists of writes -/

namespace Write

variable {μ : Type} [Measure μ] {s : Store μ} {ws : List (Write μ)} {id key tag : String}

/-- Only observations change the kind and the label. -/
theorem face_onto (id : String) (o : Option (Node μ)) (w : Write μ) :
    (w.onto id o).map Node.face = ((w.sight? id).map Node.face).or (o.map Node.face) := by
  cases w with
  | observe seen =>
    simp only [onto, sight?]
    split
    · cases o with
      | none => rfl
      | some n => rfl
    · rfl
  | patch target changes =>
    simp only [onto, sight?, Option.map_none, Option.none_or]
    split
    · rw [Option.map_map]
      exact congrFun (congrArg Option.map (funext changes.face_apply)) o
    · rfl

/-- **The last observation gives the kind and the label.** -/
theorem face_foldl_onto (id : String) (ws : List (Write μ)) (o : Option (Node μ)) :
    (ws.foldl (onto id) o).map Node.face =
      ((ws.filterMap (sight? id)).getLast?.map Node.face).or (o.map Node.face) := by
  induction ws using List.reverseRecOn with
  | nil => rfl
  | append_singleton ws w ih =>
    rw [List.foldl_append, List.foldl_cons, List.foldl_nil, face_onto, ih, List.filterMap_append,
      List.getLast?_append]
    cases h : w.sight? id with
    | none => simp [h]
    | some seen => simp [h]

/-- A write gives a property its value, if it is no counter and the node of an update is there. -/
theorem property_onto {o : Option (Node μ)} {w : Write μ}
    (hnode : o.isSome = true ∨ w.Sees id ∨ w.target ≠ id) (htallies : ¬ w.Tallies id key) :
    (w.onto id o).bind (·.properties.get? key) =
      (w.property? id key).or (o.bind (·.properties.get? key)) := by
  cases w with
  | observe seen =>
    simp only [onto, property?]
    split
    · cases o with
      | none => simp
      | some n => exact Table.get?_overlay _ _ _
    · simp
  | patch target changes =>
    simp only [onto, property?]
    split
    · next hid =>
      have hsome : o.isSome = true := by
        rcases hnode with h | h | h
        · exact h
        · exact h.elim
        · exact absurd hid h
      obtain ⟨n, rfl⟩ := Option.isSome_iff_exists.mp hsome
      exact changes.get?_properties_apply n fun h => htallies ⟨hid, h⟩
    · simp

/-- A write that lands has a node to change, or changes another one. -/
theorem Lands.isSome_or {w : Write μ} (h : w.Lands s ws) (id : String) :
    (ws.foldl (onto id) (s.node? id)).isSome = true ∨ w.Sees id ∨ w.target ≠ id := by
  cases w with
  | observe seen => exact .inr (em (seen.id = id))
  | patch target changes =>
    by_cases hid : target = id
    · subst hid
      exact .inl (lands_patch_iff.mp h)
    · exact .inr (.inr hid)

/-- **The last write of a property gives its value.** -/
theorem property_foldl_onto (s : Store μ) (ws : List (Write μ)) {id key : String}
    (htallies : ∀ w ∈ landed s ws, ¬ w.Tallies id key) :
    (ws.foldl (onto id) (s.node? id)).bind (·.properties.get? key) =
      ((landed s ws).filterMap (property? id key)).getLast?.or
        ((s.node? id).bind (·.properties.get? key)) := by
  induction ws using List.reverseRecOn with
  | nil => rfl
  | append_singleton ws w ih =>
    rw [landed_concat] at htallies ⊢
    rw [List.foldl_append, List.foldl_cons, List.foldl_nil]
    have hbefore := ih fun v hv => htallies v (List.mem_append_left _ hv)
    by_cases hlands : w.Lands s ws
    · rw [if_pos hlands] at htallies ⊢
      have hlast : ¬ w.Tallies id key := htallies w (by simp)
      rw [property_onto (hlands.isSome_or id) hlast, hbefore, List.filterMap_append,
        List.getLast?_append]
      cases h : w.property? id key with
      | none => simp [h]
      | some v => simp [h]
    · rw [if_neg hlands, List.append_nil, onto_of_not_lands hlands, hbefore]

/-- A write gives a node its tags. -/
theorem hasTag_onto_iff {o : Option (Node μ)} {w : Write μ}
    (hnode : o.isSome = true ∨ w.Sees id ∨ w.target ≠ id) :
    (w.onto id o).any (·.hasTag tag) = true ↔ o.any (·.hasTag tag) = true ∨ w.Marks id tag := by
  cases o with
  | some n =>
    obtain ⟨n', hn', -⟩ := w.grows_onto id n
    rw [hn']
    exact hasTag_onto hn'
  | none =>
    cases w with
    | observe seen =>
      simp only [onto, Marks]
      split
      · next hid => simp [hid]
      · next hid => simp [hid]
    | patch target changes =>
      have hid : target ≠ id := by
        rcases hnode with h | h | h
        · cases h
        · exact h.elim
        · exact h
      simp [onto, Marks, hid]

/-- **Tags are gathered from all writes.** -/
theorem hasTag_foldl_onto_iff (s : Store μ) (ws : List (Write μ)) (id tag : String) :
    (ws.foldl (onto id) (s.node? id)).any (·.hasTag tag) = true ↔
      (s.node? id).any (·.hasTag tag) = true ∨ ∃ w ∈ landed s ws, w.Marks id tag := by
  induction ws using List.reverseRecOn with
  | nil => simp [landed, trail]
  | append_singleton ws w ih =>
    rw [landed_concat, List.foldl_append, List.foldl_cons, List.foldl_nil]
    by_cases hlands : w.Lands s ws
    · rw [if_pos hlands, hasTag_onto_iff (hlands.isSome_or id), ih, or_assoc]
      simp only [List.mem_append, List.mem_singleton, or_and_right, exists_or, exists_eq_left]
    · rw [if_neg hlands, List.append_nil, onto_of_not_lands hlands, ih]

end Write

/-! ## 4. The whole commit -/

namespace Commit

variable {μ : Type}

/-- One result is written before another: its analyzer comes first, or it is the same one and the node
has the smaller id. -/
def Precedes (a b : Completion μ) : Prop :=
  a.position < b.position ∨ (a.position = b.position ∧ a.pair.node < b.pair.node)

theorem Precedes.asymm {a b : Completion μ} (h : Precedes a b) : ¬ Precedes b a := by
  rintro (hlt | ⟨heq, hlt⟩)
  · rcases h with h | h <;> omega
  · rcases h with h | h
    · omega
    · exact lt_asymm h.2 hlt

/-- **What the last writers leave of a node**, if these are the writes that a commit does. -/
structure LastWritten (s s' : Store μ) (ws : List (Write μ)) (id : String) : Prop where
  /-- The node is there if it was, or if it was seen. -/
  contains : s'.contains id = true ↔ s.contains id = true ∨ ∃ w ∈ ws, w.Sees id
  /-- It has the tags that it had, and all that were written. -/
  hasTag : ∀ tag, (s'.node? id).any (·.hasTag tag) = true ↔
    (s.node? id).any (·.hasTag tag) = true ∨ ∃ w ∈ ws, w.Marks id tag
  /-- Kind and label are those of the last observation, or else those it had. -/
  face : (s'.node? id).map Node.face =
    ((ws.filterMap (Write.sight? id)).getLast?.map Node.face).or ((s.node? id).map Node.face)
  /-- Once it is written, a property that counts no sum has the value that was written last, or else
  the value that it had, as it is stored. -/
  property : (∃ w ∈ ws, w.target = id) → ∀ key, (∀ w ∈ ws, ¬ w.Tallies id key) →
    (s'.node? id).bind (·.properties.get? key) =
      ((ws.filterMap (Write.property? id key)).getLast?.or
        ((s.node? id).bind (·.properties.get? key))).map Value.stored
  /-- If storage does not change that value, it is the value of the property. -/
  lasting : (∃ w ∈ ws, w.target = id) → ∀ key, (∀ w ∈ ws, ¬ w.Tallies id key) →
    ∀ v, v.Lasting → (ws.filterMap (Write.property? id key)).getLast?.or
        ((s.node? id).bind (·.properties.get? key)) = some v →
      (s'.node? id).bind (·.properties.get? key) = some v
  /-- A node that is not written is as it was. -/
  untouched : (∀ w ∈ ws, w.target ≠ id) → s'.node? id = s.node? id

/-- Results with places of their own are written in the order of their places. -/
theorem pairwise_precedes {results : List (Completion μ)} (hplaces : (results.map place).Nodup) :
    (results.mergeSort before).Pairwise Precedes := by
  have hperm := (List.mergeSort_perm results before).map place
  have hdistinct : (results.mergeSort before).Pairwise fun a b => place a ≠ place b :=
    List.pairwise_map.mp (hperm.nodup_iff.mpr hplaces)
  refine ((pairwise_mergeSort results).and hdistinct).imp ?_
  rintro a b ⟨hbefore, hne⟩
  simp only [before, Bool.or_eq_true, Bool.and_eq_true, decide_eq_true_eq, beq_iff_eq] at hbefore
  rcases hbefore with hlt | ⟨heq, hle⟩
  · exact .inl hlt
  · refine .inr ⟨heq, lt_of_le_of_ne hle fun hnode => hne ?_⟩
    rw [place, place, heq, hnode]

/-- There is no other order. -/
theorem eq_mergeSort_of_pairwise {results ordered : List (Completion μ)}
    (hplaces : (results.map place).Nodup) (hperm : ordered.Perm results)
    (hordered : ordered.Pairwise Precedes) : ordered = results.mergeSort before := by
  refine List.Perm.eq_of_pairwise ?_ hordered (pairwise_precedes hplaces) ?_
  · intro a b _ _ hab hba
    exact absurd hba hab.asymm
  · exact hperm.trans (List.mergeSort_perm results before).symm

variable [Measure μ] {s : Store μ} {results : List (Completion μ)} {number : Nat} {id : String}

theorem viewed_eq_landed (s : Store μ) (results : List (Completion μ)) (id : String) :
    viewed s results id = (Write.landed s (writes results)).foldl (Write.onto id) (s.node? id) :=
  (Write.foldl_onto_landed s (writes results) id).symm

/-- What storage does not touch is as the writes leave it. -/
theorem field_committed {β : Type} (field : Node μ → β) (hfield : ∀ n, field n.stored = field n)
    (hs : s.Keyed) :
    ((committed s results number).node? id).map field = (viewed s results id).map field := by
  rw [node?_committed]
  rcases node?_written_cases hs results id with h | h
  · rw [h]
  · rw [h, Option.map_map]
    exact congrFun (congrArg Option.map (funext hfield)) _

/-- A node that no write has touched is as it was, though some may have been dropped. -/
theorem node?_committed_of_untouched (hs : s.Keyed)
    (h : ∀ w ∈ Write.landed s (writes results), w.target ≠ id) :
    (committed s results number).node? id = s.node? id := by
  rw [node?_committed]
  by_cases hwrite : ∃ w ∈ writes results, w.target = id
  · obtain ⟨w, hw, hid⟩ := hwrite
    have hviewed : viewed s results id = s.node? id := by
      rw [viewed_eq_landed]
      generalize s.node? id = o
      generalize Write.landed s (writes results) = ws at h
      induction ws with
      | nil => rfl
      | cons v rest ih =>
        simp only [List.mem_cons, forall_eq_or_imp] at h
        rw [List.foldl_cons, Write.onto_of_ne h.1, ih h.2]
    -- an update of a stored node would have landed
    have habsent : s.node? id = none := by
      obtain ⟨earlier, later, hsplit⟩ := List.append_of_mem hw
      have hdropped : ¬ w.Lands s earlier := fun hlands =>
        h w (Write.mem_landed.mpr ⟨earlier, later, hsplit, hlands⟩) hid
      cases w with
      | observe seen => exact absurd trivial hdropped
      | patch target changes =>
        obtain rfl : target = id := hid
        have hnot : ¬ s.contains target = true := fun hthere => hdropped (.inl hthere)
        rwa [Store.contains_eq_isSome, Option.not_isSome_iff_eq_none] at hnot
    rw [node?_written_of_target hs ⟨w, hw, hid⟩, hviewed, habsent]
    rfl
  · exact node?_written_of_forall_ne hs fun w hw hid => hwrite ⟨w, hw, hid⟩

/-- The properties of a node that is written go through storage. -/
theorem property_committed (hs : s.Keyed)
    (hwritten : ∃ w ∈ Write.landed s (writes results), w.target = id) {key : String}
    (htallies : ∀ w ∈ Write.landed s (writes results), ¬ w.Tallies id key) :
    ((committed s results number).node? id).bind (·.properties.get? key) =
      (((Write.landed s (writes results)).filterMap (Write.property? id key)).getLast?.or
        ((s.node? id).bind (·.properties.get? key))).map Value.stored := by
  have hwrite : ∃ w ∈ writes results, w.target = id := by
    obtain ⟨w, hw, hid⟩ := hwritten
    obtain ⟨earlier, later, hsplit, -⟩ := Write.mem_landed.mp hw
    exact ⟨w, by simp [hsplit], hid⟩
  rw [← Write.property_foldl_onto s (writes results) htallies, node?_committed,
    node?_written_of_target hs hwrite, viewed]
  cases (writes results).foldl (Write.onto id) (s.node? id) with
  | none => rfl
  | some n => exact Table.get?_mapValues _ _ _

/-- **In a commit the last writer wins.** -/
theorem lastWritten_committed (hs : s.Keyed) (results : List (Completion μ)) (number : Nat)
    (id : String) :
    LastWritten s (committed s results number) (Write.landed s (writes results)) id where
  contains := by
    rw [contains_committed hs, viewed_eq_landed, Write.isSome_foldl_onto_iff, s.contains_eq_isSome]
  hasTag tag := by
    have hany : ∀ o : Option (Node μ),
        o.any (·.hasTag tag) = (o.map (·.hasTag tag)).any fun b => b := by
      intro o
      rw [Option.any_map]
    rw [hany, field_committed (·.hasTag tag) (fun _ => rfl) hs, ← hany, viewed,
      Write.hasTag_foldl_onto_iff]
  face := by
    rw [field_committed Node.face (fun _ => rfl) hs, viewed_eq_landed, Write.face_foldl_onto]
  property hwritten key htallies := property_committed hs hwritten htallies
  lasting hwritten key htallies v hv hlast := by
    rw [property_committed hs hwritten htallies, hlast, Option.map_some, hv.stored_eq]
  untouched := node?_committed_of_untouched hs

end Commit

section Winners

variable {μ : Type} [Measure μ]

/-- **The last writer wins.**  Results with places of their own can be put into the order of their
places.  Whatever list has them in that order, every node is after the commit what the last writers in
that list leave of it, where updates are left out that find no node. -/
theorem last_writer_wins {results : List (Completion μ)} {number size : Nat} {σ σ' : State μ}
    {summary : CommitSummary} (hs : σ.store.Keyed) (hplaces : (results.map Commit.place).Nodup)
    (h : Returns (Commit.pass results number size) σ summary σ') :
    (∃ ordered : List (Completion μ), ordered.Perm results ∧ ordered.Pairwise Commit.Precedes) ∧
    ∀ ordered : List (Completion μ), ordered.Perm results → ordered.Pairwise Commit.Precedes →
      ∀ id, Commit.LastWritten σ.store σ'.store
        (Write.landed σ.store (ordered.flatMap Completion.writes)) id := by
  refine ⟨⟨results.mergeSort Commit.before, List.mergeSort_perm results _,
    Commit.pairwise_precedes hplaces⟩, ?_⟩
  intro ordered hperm hordered id
  rw [(Commit.of_returns_pass h).2, Commit.eq_mergeSort_of_pairwise hplaces hperm hordered]
  exact Commit.lastWritten_committed hs results number id

end Winners

/-- Has seen a page as a sketch. -/
def pencilled : Completion Float where
  position := 0
  pair := ⟨"pencil", "desk"⟩
  outcome := .ran
  findings := Findings.observe {}
    (((Node.new "page" "sketch").tag "grey").property "state" (.str "rough"))
  message := none

/-- Has seen the same page as a letter, and says what state it is in. -/
def typed : Completion Float where
  position := 1
  pair := ⟨"typewriter", "desk"⟩
  outcome := .ran
  findings := (Findings.observe {} ((Node.new "page" "letter").tag "black")).property "page" "state"
    (.str "fair")
  message := none

/-- The page is a letter in a fair state, with the tags of both, whatever order the results come in. -/
theorem last_writer_wins_page : ∃ summary σ',
    Returns (Commit.pass [typed, pencilled] 1 10) bareDesk summary σ' ∧
    (σ'.store.node? "page").map Node.face = some ("letter", "page") ∧
    ((σ'.store.node? "page").bind (·.properties.get? "state")).bind Value.text? = some "fair" ∧
    (σ'.store.node? "page").any (·.hasTag "grey") = true ∧
    (σ'.store.node? "page").any (·.hasTag "black") = true ∧
    σ'.store.node? "desk" = bareDesk.store.node? "desk" := by
  obtain ⟨summary, σ', hreturns⟩ := exists_returns_bareDesk [typed, pencilled]
    (by simp [typed, pencilled])
  have hs : bareDesk.store.Keyed := Store.keyed_empty.mergeNodes _
  obtain ⟨-, hwritten⟩ := last_writer_wins hs (by decide +kernel) hreturns
  have hwrites := hwritten [pencilled, typed] (List.Perm.swap _ _ _)
    (List.pairwise_pair.mpr (.inl (by decide)))
  have hpage := hwrites "page"
  refine ⟨summary, σ', hreturns, hpage.face.trans (by decide +kernel), ?_, ?_, ?_, ?_⟩
  · rw [hpage.property (by decide +kernel) "state" (by decide +kernel)]
    decide +kernel
  · exact (hpage.hasTag "grey").mpr (.inr (by decide +kernel))
  · exact (hpage.hasTag "black").mpr (.inr (by decide +kernel))
  · exact (hwrites "desk").untouched (by decide +kernel)

/-- Writes a very small number. -/
def gauging : Completion Float where
  position := 0
  pair := ⟨"gauge", "desk"⟩
  outcome := .ran
  findings := Findings.property {} "desk" "ratio" (.float 1e-24)
  message := none

/-- **A property need not have the value of its last write.**  There is one write in this commit, and
what can be read afterwards is another number. -/
theorem property_changed_in_commit : ∃ summary σ',
    Returns (Commit.pass [gauging] 1 10) bareDesk summary σ' ∧
    gauging.writes.filterMap (Write.property? "desk" "ratio") = [.float 1e-24] ∧
    ((σ'.store.node? "desk").bind (·.properties.get? "ratio")).bind Value.number? =
      some 1.0000000000000001e-24 ∧
    (1e-24 : Float) ≠ 1.0000000000000001e-24 := by
  have hanswers : answers (Commit.pass [gauging] 1 10) bareDesk (fun _ => true) = true := by
    decide +kernel
  obtain ⟨summary, hreturns, -⟩ := exists_returns hanswers
  refine ⟨summary, _, hreturns, rfl, ?_, ?_⟩
  · decide +kernel
  · decide +kernel

end FactGraph
