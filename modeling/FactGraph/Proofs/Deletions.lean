import FactGraph.Proofs.Batches

/-!
# Deletions

Deleting a node takes along its tags, its edges and its ledger rows.  Two things are said about how
much that is.

* It is EVERYTHING about the node.  Whatever was written about a node since it was not stored, in any
  order and any number of times, a deletion does not see it (`Store.delete_after`), and without it
  there was nothing to delete (`Store.Linked.delete_of_absent`).  So the store is the one from before,
  and nothing is left that could come back when the node is seen again.
* It is NOTHING ELSE: of each of the four lists of a store exactly the rows of others are left, as they
  were and in their order (`Store.Keyed.rid_delete`).

The first half needs tables that agree.  A store with an edge to a node that it does not hold would
lose that edge; a history never leads to one (`Store.linked_built`).

`deletion_of_history` puts the two together.
-/

namespace FactGraph

open Std

/-! ## 1. Rows that go -/

namespace Table

variable {κ α : Type} [Ord κ] [TransOrd κ] [LawfulEqOrd κ]

/-- A row whose key is filtered out may as well not be written. -/
theorem filter_insert {t : Table κ α} {keep : κ → α → Bool} {k : κ} (h : ∀ a, keep k a = false)
    (a : α) : (t.insert k a).filter keep = t.filter keep := by
  refine ext_get? fun k' => ?_
  rw [get?_filter, get?_filter, get?_insert]
  split_ifs with hk
  · rw [Std.compare_eq_iff_eq.mp hk, Option.filter_some_neg (h a)]
    cases t.get? k with
    | none => rfl
    | some b => exact (Option.filter_some_neg (h b)).symm
  · rfl

theorem filter_eq_self {t : Table κ α} {keep : κ → α → Bool}
    (h : ∀ k, t.contains k = true → ∀ a, keep k a = true) : t.filter keep = t := by
  refine ext_get? fun k => ?_
  rw [get?_filter]
  cases hk : t.get? k with
  | none => rfl
  | some a => exact Option.filter_some_pos (h k (contains_iff.mpr ⟨a, hk⟩) a)

omit [TransOrd κ] [LawfulEqOrd κ] in
theorem erase_eq_filter (t : Table κ α) (k : κ) :
    t.erase k = t.filter fun k' _ => compare k k' != .eq :=
  rfl

/-- Erasing makes a table smaller exactly if there is something to erase. -/
theorem size_erase_lt_iff (t : Table κ α) (k : κ) :
    (t.erase k).size < t.size ↔ t.contains k = true := by
  have hsize : (t.erase k).size = (t.rows.filter fun row => compare k row.1 != .eq).length := rfl
  rw [hsize, size, List.length_filter_lt_length_iff_exists, contains_iff]
  constructor
  · rintro ⟨⟨k', a⟩, hrow, hk⟩
    obtain rfl : k = k' := by simpa using hk
    exact ⟨a, mem_rows.mp hrow⟩
  · rintro ⟨a, ha⟩
    exact ⟨(k, a), mem_rows.mpr ha, by simp⟩

end Table

namespace Store

variable {μ : Type} {s : Store μ} {id : String}

/-! ## 2. What a deletion does not see -/

section Unseen

variable [Measure μ]

/-- The tags that a node is written with are gone with those it had. -/
theorem tagsWithout_mergeNode (s : Store μ) (n : Node μ) :
    (s.mergeNode n).tagsWithout n.id = s.tagsWithout n.id := by
  refine KeySet.ext_contains fun t => ?_
  rw [contains_tagsWithout, contains_tagsWithout, contains_tags_mergeNode]
  refine and_congr_right fun hne => ?_
  rw [if_neg hne]

theorem delete_mergeNode (s : Store μ) (n : Node μ) : (s.mergeNode n).delete n.id = s.delete n.id := by
  have hrows : (s.mergeNode n).rows.erase n.id = s.rows.erase n.id := by
    rw [mergeNode, Table.erase_eq_filter, Table.filter_insert fun _ => by simp]
    rfl
  rw [delete, hrows, tagsWithout_mergeNode]
  rfl

theorem delete_mergeNodes {batch : List (Node μ)} (h : ∀ n ∈ batch, n.id = id) :
    (s.mergeNodes batch).delete id = s.delete id := by
  induction batch generalizing s with
  | nil => rfl
  | cons n rest ih =>
    obtain ⟨rfl, hrest⟩ := List.forall_mem_cons.mp h
    exact (ih hrest).trans (delete_mergeNode s n)

end Unseen

theorem delete_addEdge {e : Edge} (h : e.source = id ∨ e.target = id) :
    (s.addEdge e).1.delete id = s.delete id := by
  have hgone : (e.key.source != id && e.key.target != id) = false := by
    rcases h with rfl | rfl <;> simp [Edge.key]
  unfold addEdge
  split_ifs
  · rfl
  · rw [delete]
    dsimp only
    rw [Table.filter_insert fun _ => hgone]
    rfl

theorem delete_addEdges {batch : List Edge} (h : ∀ e ∈ batch, e.source = id ∨ e.target = id) :
    (s.addEdges batch).1.delete id = s.delete id := by
  induction batch generalizing s with
  | nil => rfl
  | cons e rest ih =>
    obtain ⟨he, hrest⟩ := List.forall_mem_cons.mp h
    exact (ih hrest).trans (delete_addEdge he)

theorem delete_note {rows : List LedgerRow} (h : ∀ row ∈ rows, row.pair.node = id) :
    (s.note rows).delete id = s.delete id := by
  induction rows generalizing s with
  | nil => rfl
  | cons row rest ih =>
    obtain ⟨rfl, hrest⟩ := List.forall_mem_cons.mp h
    have hrow : (s.note [row]).delete row.pair.node = s.delete row.pair.node := by
      simp only [delete, note, List.foldl_cons, List.foldl_nil]
      rw [Table.filter_insert fun _ => by simp]
      rfl
    rw [← List.singleton_append, note_append, ih hrest, hrow]

/-! ## 3. Changes about one node -/

/-- A change that is about one node only: it writes the node, edges at it, or ledger rows of it. -/
def Change.Concerns (id : String) : Change μ → Prop
  | .mergeNode n => n.id = id
  | .mergeNodes batch => ∀ n ∈ batch, n.id = id
  | .createEdge e => e.source = id ∨ e.target = id
  | .createEdges batch => ∀ e ∈ batch, e.source = id ∨ e.target = id
  | .record rows => ∀ row ∈ rows, row.pair.node = id
  | .delete _ | .resetLedger | .clear => False

/-- A change that writes a node. -/
def Change.Merges (id : String) : Change μ → Prop
  | .mergeNode n => n.id = id
  | .mergeNodes batch => ∃ n ∈ batch, n.id = id
  | _ => False

section History

variable [Measure μ]

/-- **A deletion does not see a change about the deleted node.** -/
theorem delete_apply {c : Change μ} {s' : Store μ} (h : c.Concerns id) (hc : c.apply s = .ok s') :
    s'.delete id = s.delete id := by
  cases c with
  | mergeNode n =>
    cases hc
    obtain rfl : n.id = id := h
    exact delete_mergeNode s n
  | mergeNodes batch =>
    cases hc
    exact delete_mergeNodes h
  | createEdge e =>
    rw [((s.map_createEdges_eq_ok_iff [e] s').mp hc).2]
    exact delete_addEdges (List.forall_mem_singleton.mpr h)
  | createEdges batch =>
    rw [((s.map_createEdges_eq_ok_iff batch s').mp hc).2]
    exact delete_addEdges h
  | record rows =>
    rw [eq_note_of_record hc]
    exact delete_note h
  | delete other => exact h.elim
  | resetLedger => exact h.elim
  | clear => exact h.elim

theorem delete_after {a : Attempt μ} (h : a.change.Concerns id) :
    (s.after a).delete id = s.delete id := by
  rcases s.after_cases a with heq | ⟨-, hok⟩
  · rw [heq]
  · exact delete_apply h hok

theorem delete_foldl_after {attempts : List (Attempt μ)} (h : ∀ a ∈ attempts, a.change.Concerns id) :
    (attempts.foldl after s).delete id = s.delete id := by
  induction attempts generalizing s with
  | nil => rfl
  | cons a rest ih =>
    obtain ⟨ha, hrest⟩ := List.forall_mem_cons.mp h
    exact (ih hrest).trans (delete_after ha)

theorem contains_mergeNodes (s : Store μ) (batch : List (Node μ)) (id : String) :
    (s.mergeNodes batch).contains id = true ↔ (∃ n ∈ batch, n.id = id) ∨ s.contains id = true := by
  induction batch generalizing s with
  | nil => simp [mergeNodes]
  | cons n rest ih =>
    have hrest := ih (s.mergeNode n)
    rw [contains_mergeNode] at hrest
    rw [List.exists_mem_cons_iff, or_assoc, or_left_comm, @eq_comm _ n.id]
    exact hrest

theorem exists_apply_of_merges {c : Change μ} (s : Store μ) (h : c.Merges id) :
    ∃ s', c.apply s = .ok s' ∧ s'.contains id = true := by
  cases c with
  | mergeNode n => exact ⟨_, rfl, (contains_mergeNode s n id).mpr (.inl h.symm)⟩
  | mergeNodes batch => exact ⟨_, rfl, (contains_mergeNodes s batch id).mpr (.inl h)⟩
  | _ => exact h.elim

/-- No change about a node removes it. -/
theorem contains_apply {c : Change μ} {s' : Store μ} (h : c.Concerns id) (hc : c.apply s = .ok s')
    (hid : s.contains id = true) : s'.contains id = true := by
  cases c with
  | mergeNode n =>
    cases hc
    exact (contains_mergeNode s n id).mpr (.inr hid)
  | mergeNodes batch =>
    cases hc
    exact (contains_mergeNodes s batch id).mpr (.inr hid)
  | createEdge e =>
    rw [((s.map_createEdges_eq_ok_iff [e] s').mp hc).2, contains_addEdges]
    exact hid
  | createEdges batch =>
    rw [((s.map_createEdges_eq_ok_iff batch s').mp hc).2, contains_addEdges]
    exact hid
  | record rows =>
    rw [eq_note_of_record hc]
    exact hid
  | delete other => exact h.elim
  | resetLedger => exact h.elim
  | clear => exact h.elim

theorem contains_after {a : Attempt μ} (h : a.change.Concerns id)
    (hid : (a.fault = none ∧ a.change.Merges id) ∨ s.contains id = true) :
    (s.after a).contains id = true := by
  rcases hid with ⟨hfault, hmerges⟩ | hid
  · obtain ⟨s', hok, hid⟩ := exists_apply_of_merges s hmerges
    rw [after_eq hfault hok]
    exact hid
  · rcases s.after_cases a with heq | ⟨-, hok⟩
    · rw [heq]
      exact hid
    · exact contains_apply h hok hid

/-- The node is stored once one of the changes has written it. -/
theorem contains_foldl_after {attempts : List (Attempt μ)}
    (h : ∀ a ∈ attempts, a.change.Concerns id)
    (hid : (∃ a ∈ attempts, a.fault = none ∧ a.change.Merges id) ∨ s.contains id = true) :
    (attempts.foldl after s).contains id = true := by
  induction attempts generalizing s with
  | nil => exact hid.resolve_left (by simp)
  | cons a rest ih =>
    obtain ⟨ha, hrest⟩ := List.forall_mem_cons.mp h
    refine ih hrest ?_
    rw [List.exists_mem_cons_iff, or_assoc, or_left_comm] at hid
    exact hid.imp_right (contains_after ha)

end History

/-! ## 4. What a deletion leaves -/

theorem deleteNode_fst (s : Store μ) (id : String) : (s.deleteNode id).1 = s.delete id := rfl

/-- A deletion reports whether the node was there. -/
theorem deleteNode_snd (s : Store μ) (id : String) : (s.deleteNode id).2 = s.contains id := by
  rw [Bool.eq_iff_iff, contains, ← Table.size_erase_lt_iff]
  exact decide_eq_true_iff

/-- Where the tables agree, a node that is not stored leaves no trace. -/
theorem Linked.delete_of_absent [Measure μ] (h : s.Linked) (hid : s.contains id = false) :
    s.delete id = s := by
  have hne : ∀ other, s.contains other = true → other ≠ id := by
    rintro other hother rfl
    rw [hid] at hother
    cases hother
  have hrows : s.rows.erase id = s.rows := by
    rw [Table.erase_eq_filter]
    refine Table.filter_eq_self fun other hother _ => ?_
    simpa using (hne other hother).symm
  have htags : s.tagsWithout id = s.tags := by
    refine Table.filter_eq_self fun t ht _ => ?_
    simpa using hne _ (h.keyed.tagged t ht)
  have hedges : (s.edges.filter fun key _ => key.source != id && key.target != id) = s.edges := by
    refine Table.filter_eq_self fun key hkey _ => ?_
    obtain ⟨hsource, htarget⟩ := h.edges key hkey
    simpa using ⟨hne _ hsource, hne _ htarget⟩
  have hledger : (s.ledger.filter fun pair _ => pair.node != id) = s.ledger := by
    refine Table.filter_eq_self fun pair hpair _ => ?_
    simpa using hne _ (h.ledger pair hpair)
  rw [Store.delete, hrows, htags, hedges, hledger]

/-- `t` is `s` rid of a node: of every list exactly the rows of others are left, as they were. -/
structure Rid (s t : Store μ) (id : String) : Prop where
  nodes : t.allNodes = s.allNodes.filter (·.id ≠ id)
  tags : t.tagRows = s.tagRows.filter (·.1 ≠ id)
  edges : t.allEdges = s.allEdges.filter fun e => e.source ≠ id ∧ e.target ≠ id
  ledger : t.ledgerRows = s.ledgerRows.filter (·.pair.node ≠ id)

theorem Keyed.allNodes_delete (h : s.Keyed) (id : String) :
    (s.delete id).allNodes = s.allNodes.filter (·.id ≠ id) := by
  have hnodes : (s.delete id).nodes = s.nodes.erase id := by
    refine Table.ext_get? fun other => ?_
    rw [get?_nodes, node?_delete, Table.get?_erase, get?_nodes]
    simp only [Std.compare_eq_iff_eq]
  have hrows : (s.delete id).allNodes =
      (s.nodes.rows.filter fun row => compare id row.1 != .eq).map (·.2) := by
    rw [allNodes, hnodes]
    rfl
  rw [hrows, allNodes, Table.values, List.filter_map]
  refine congrArg _ (List.filter_congr fun row hrow => ?_)
  have hid : row.2.id = row.1 :=
    h.own row.1 row.2 ((s.get?_nodes row.1).symm.trans (Table.mem_rows.mp hrow))
  rw [Function.comp_apply, hid, Bool.eq_iff_iff, bne_iff_ne, ne_eq, Std.compare_eq_iff_eq,
    decide_eq_true_iff]
  exact ne_comm

/-- **A deletion removes the node, what belongs to it and what refers to it, and nothing else.** -/
theorem Keyed.rid_delete (h : s.Keyed) (id : String) : s.Rid (s.delete id) id where
  nodes := h.allNodes_delete id
  tags := by
    have hrows : (s.delete id).tagRows =
        ((s.tags.rows.filter fun row => row.1.node != id).map (·.1)).map
          fun t => (t.node, t.tag) := rfl
    rw [hrows, tagRows, KeySet.members, Table.keys, List.map_map, List.map_map, List.filter_map]
    refine congrArg _ (List.filter_congr fun row _ => ?_)
    rw [Bool.eq_iff_iff]
    simp
  edges := by
    have hrows : (s.delete id).allEdges = (s.edges.rows.filter fun row =>
        row.1.source != id && row.1.target != id).map fun row => Edge.ofKey row.1 row.2 := rfl
    rw [hrows, allEdges, List.filter_map]
    refine congrArg _ (List.filter_congr fun row _ => ?_)
    rw [Bool.eq_iff_iff]
    simp [Edge.ofKey]
  ledger := by
    have hrows : (s.delete id).ledgerRows = (s.ledger.rows.filter fun row =>
        row.1.node != id).map fun row => ⟨row.1, row.2⟩ := rfl
    rw [hrows, ledgerRows, List.filter_map]
    refine congrArg _ (List.filter_congr fun row _ => ?_)
    rw [Bool.eq_iff_iff]
    simp

/-! ## 5. Whatever the history -/

/-- **Deleting a node undoes everything about it and nothing else.**  Whatever the history of a store:

* if the node is not stored, and then only changes about it are tried, at least one of which writes
  it, then a deletion finds it and gives back the store from before, exactly;
* a deletion reports whether the node was there, and leaves every other node, every edge between
  others and every ledger row of others as it was. -/
theorem deletion_of_history [Measure μ] (history : List (Attempt μ)) (id : String) :
    ((built history).contains id = false → ∀ attempts : List (Attempt μ),
      (∀ a ∈ attempts, a.change.Concerns id) →
      (∃ a ∈ attempts, a.fault = none ∧ a.change.Merges id) →
        (built (history ++ attempts)).deleteNode id = (built history, true)) ∧
    ((built history).deleteNode id).2 = (built history).contains id ∧
    (built history).Rid ((built history).deleteNode id).1 id := by
  have hlinked := linked_built history
  refine ⟨fun habsent attempts hconcern hmerge => ?_, deleteNode_snd _ id, hlinked.keyed.rid_delete id⟩
  have hbuilt : built (history ++ attempts) = attempts.foldl after (built history) :=
    List.foldl_append
  refine Prod.ext ?_ ?_
  · rw [deleteNode_fst, hbuilt, delete_foldl_after hconcern, hlinked.delete_of_absent habsent]
  · rw [deleteNode_snd, hbuilt]
    exact contains_foldl_after hconcern (.inl hmerge)

/-- Changes about a node `x` beside `a` and `b`, the first too early, one lost by storage: an edge in
both directions, one to itself and one that is there, a row of the ledger, and the node once more. -/
def visits : List (Attempt Float) :=
  [{ change := .createEdges [⟨"x", "a", "near", none⟩] },
   { change := .mergeNode ((Node.new "x" "file").tag "old") },
   { change := .createEdges
      [⟨"x", "a", "near", none⟩, ⟨"b", "x", "near", some (.int 1)⟩, ⟨"x", "x", "near", none⟩] },
   { change := .record [⟨⟨"lines", "x"⟩, ⟨.ran, 1, none⟩⟩] },
   { change := .mergeNode ((Node.new "x" "directory").tag "new"), fault := some danglingRowError },
   { change := .createEdge ⟨"b", "x", "near", none⟩ },
   { change := .mergeNode ((Node.new "x" "directory").tag "new") }]

theorem deletion_of_visits :
    (built twoFiles).contains "x" = false ∧
      (built (twoFiles ++ visits)).edges.size = 3 ∧ (built (twoFiles ++ visits)).ledger.size = 1 ∧
      (built (twoFiles ++ visits)).tagRows = [("x", "new")] ∧
      (built (twoFiles ++ visits)).deleteNode "x" = (built twoFiles, true) ∧
      (built (twoFiles ++ visits)).Rid ((built (twoFiles ++ visits)).deleteNode "x").1 "x" := by
  have habsent : (built twoFiles).contains "x" = false := by decide +kernel
  have hconcern : ∀ a ∈ visits, a.change.Concerns "x" := by
    simp [visits, Change.Concerns, Node.new, Node.tag]
  have hmerge : ∃ a ∈ visits, a.fault = none ∧ a.change.Merges "x" :=
    ⟨_, List.mem_cons_of_mem _ List.mem_cons_self, rfl, rfl⟩
  exact ⟨habsent, by decide +kernel, by decide +kernel, by decide +kernel,
    (deletion_of_history twoFiles "x").1 habsent visits hconcern hmerge,
    (deletion_of_history (twoFiles ++ visits) "x").2.2⟩

end Store

end FactGraph
