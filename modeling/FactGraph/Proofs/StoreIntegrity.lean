import FactGraph.Proofs.Stores

/-!
# Histories of a store

A store is only ever changed by eight operations, and any of them may fail: because the store refuses
it, or because storage does.  Whatever the history, what the store answers hangs together: every
tag, edge and ledger row is about a stored node, nothing is listed twice, and every list has its
order.

The tables give each key one row and keep the rows in order.  What has to be carried through a history
is that the four of them agree (`Store.Linked`): a node that is written again loses the tags it had, a
deletion takes along everything that refers to the deleted node, and an edge or a ledger row is
refused without its nodes.

Main statements: `Store.Linked.after` (one attempt), `Store.Linked.built` (a history),
`Store.integrity_of_history`.
-/

namespace FactGraph

open Std

namespace Store

variable {μ : Type}

/-! ## 1. Histories -/

/-- The operations that change a store. -/
inductive Change (μ : Type) where
  | mergeNode (n : Node μ)
  | mergeNodes (batch : List (Node μ))
  | delete (id : String)
  | createEdge (e : Edge)
  | createEdges (batch : List Edge)
  | record (rows : List LedgerRow)
  | resetLedger
  | clear

/-- The changed store, or why the change is refused. -/
def Change.apply [Measure μ] (s : Store μ) : Change μ → Result (Store μ)
  | .mergeNode n => .ok (s.mergeNode n)
  | .mergeNodes batch => .ok (s.mergeNodes batch)
  | .delete id => .ok (s.delete id)
  | .createEdge e => (s.createEdges [e]).map (·.1)
  | .createEdges batch => (s.createEdges batch).map (·.1)
  | .record rows => s.record rows
  | .resetLedger => .ok s.resetLedger
  | .clear => .ok empty

/-- A change that is asked for, and the error with which storage fails, if it does. -/
structure Attempt (μ : Type) where
  change : Change μ
  fault : Option Error := none

/-- What comes of an attempt. -/
def Attempt.outcome [Measure μ] (a : Attempt μ) (s : Store μ) : Result (Store μ) :=
  match a.fault with
  | some e => .error e
  | none => a.change.apply s

/-- The store after an attempt; a failed one leaves it as it was. -/
def after [Measure μ] (s : Store μ) (a : Attempt μ) : Store μ :=
  match a.outcome s with
  | .ok s' => s'
  | .error _ => s

theorem after_eq [Measure μ] {s s' : Store μ} {a : Attempt μ} (hfault : a.fault = none)
    (hc : a.change.apply s = .ok s') : s.after a = s' := by
  simp [after, Attempt.outcome, hfault, hc]

/-- An attempt leaves the store as it was, or storage does not fail and the change is made. -/
theorem after_cases [Measure μ] (s : Store μ) (a : Attempt μ) :
    s.after a = s ∨ (a.fault = none ∧ a.change.apply s = .ok (s.after a)) := by
  cases hfault : a.fault with
  | some e => exact .inl (by simp [after, Attempt.outcome, hfault])
  | none =>
    cases hc : a.change.apply s with
    | error e => exact .inl (by simp [after, Attempt.outcome, hfault, hc])
    | ok s' => exact .inr ⟨rfl, by rw [after_eq hfault hc]⟩

/-- The store after a history that starts from nothing. -/
def built [Measure μ] (history : List (Attempt μ)) : Store μ := history.foldl after empty

/-! ## 2. The tables agree -/

/-- Every node stands under its own id with finite metrics, and everything else refers to stored
nodes. -/
structure Linked [Measure μ] (s : Store μ) : Prop where
  keyed : s.Keyed
  finite : s.FiniteMetrics
  edges : ∀ key, s.edges.contains key = true →
    s.contains key.source = true ∧ s.contains key.target = true
  ledger : ∀ pair, s.ledger.contains pair = true → s.contains pair.node = true

section Linked

variable [Measure μ] {s : Store μ}

theorem linked_empty : (empty : Store μ).Linked where
  keyed := keyed_empty
  finite := finiteMetrics_empty
  edges _ h := by cases h
  ledger _ h := by cases h

theorem Linked.mergeNode (h : s.Linked) (n : Node μ) : (s.mergeNode n).Linked where
  keyed := h.keyed.mergeNode n
  finite := h.finite.mergeNode n
  edges key hkey := by
    obtain ⟨h1, h2⟩ := h.edges key hkey
    exact ⟨(contains_mergeNode s n _).2 (.inr h1), (contains_mergeNode s n _).2 (.inr h2)⟩
  ledger pair hpair := (contains_mergeNode s n _).2 (.inr (h.ledger pair hpair))

theorem Linked.mergeNodes (h : s.Linked) (batch : List (Node μ)) : (s.mergeNodes batch).Linked := by
  induction batch generalizing s with
  | nil => exact h
  | cons n rest ih => exact ih (h.mergeNode n)

omit [Measure μ] in
theorem node?_delete (s : Store μ) (id other : String) :
    (s.delete id).node? other = if other = id then none else s.node? other := by
  have htags : other ≠ id → (s.delete id).tagsOf other = s.tagsOf other := by
    intro hne
    refine KeySet.ext_contains fun tag => ?_
    rw [contains_tagsOf, contains_tagsOf]
    exact (s.contains_tagsWithout id _).trans (and_iff_right hne)
  unfold node?
  rw [show (s.delete id).rows = s.rows.erase id from rfl, Table.get?_erase]
  simp only [Std.compare_eq_iff_eq]
  split_ifs with h
  · rfl
  · rw [htags h]

omit [Measure μ] in
theorem contains_delete (s : Store μ) {id other : String} (hne : other ≠ id)
    (h : s.contains other = true) : (s.delete id).contains other = true := by
  obtain ⟨n, hn⟩ := contains_iff.1 h
  exact contains_iff.2 ⟨n, by rw [node?_delete, if_neg hne, hn]⟩

/-- A deletion takes along what refers to the node. -/
theorem Linked.delete (h : s.Linked) (id : String) : (s.delete id).Linked where
  keyed := by
    refine ⟨fun other n hn => ?_, fun t ht => ?_⟩
    · rw [node?_delete] at hn
      split_ifs at hn
      exact h.keyed.own other n hn
    · obtain ⟨hne, ht⟩ := (s.contains_tagsWithout id t).1 ht
      exact contains_delete s hne (h.keyed.tagged t ht)
  finite other n hn := by
    rw [node?_delete] at hn
    split_ifs at hn
    exact h.finite other n hn
  edges key hkey := by
    obtain ⟨metadata, hrow⟩ := Table.contains_iff.1 hkey
    rw [Store.delete, Table.get?_filter, Option.filter_eq_some_iff] at hrow
    obtain ⟨hrow, hkeep⟩ := hrow
    simp only [Bool.and_eq_true, bne_iff_ne] at hkeep
    obtain ⟨h1, h2⟩ := h.edges key (Table.contains_iff.2 ⟨_, hrow⟩)
    exact ⟨contains_delete s hkeep.1 h1, contains_delete s hkeep.2 h2⟩
  ledger pair hpair := by
    obtain ⟨finish, hrow⟩ := Table.contains_iff.1 hpair
    rw [Store.delete, Table.get?_filter, Option.filter_eq_some_iff] at hrow
    obtain ⟨hrow, hkeep⟩ := hrow
    exact contains_delete s (by simpa using hkeep) (h.ledger pair (Table.contains_iff.2 ⟨_, hrow⟩))

theorem Linked.addEdge (h : s.Linked) {e : Edge} (he : s.missingEnd? e = none) :
    (s.addEdge e).1.Linked := by
  have hends : s.contains e.source = true ∧ s.contains e.target = true := by
    unfold missingEnd? at he
    split_ifs at he with h1 h2
    exact ⟨by simpa using h1, by simpa using h2⟩
  unfold Store.addEdge
  split_ifs with hold
  · exact h
  · refine ⟨⟨h.keyed.own, h.keyed.tagged⟩, h.finite, fun key hkey => ?_, h.ledger⟩
    rcases (Table.contains_insert s.edges e.key key _).1 hkey with rfl | hkey
    · exact hends
    · exact h.edges key hkey

theorem Linked.createEdges (h : s.Linked) {batch : List Edge} {r : Store μ × Nat}
    (hc : s.createEdges batch = .ok r) : r.1.Linked := by
  induction batch generalizing s r with
  | nil =>
    cases hc
    exact h
  | cons e rest ih =>
    rw [Store.createEdges] at hc
    cases hm : s.missingEnd? e with
    | some missing => simp [hm] at hc
    | none =>
      simp only [hm] at hc
      cases hr : (s.addEdge e).1.createEdges rest with
      | error err => simp [hr, bind, Except.bind] at hc
      | ok more =>
        simp only [hr, bind, Except.bind, pure, Except.pure, Except.ok.injEq] at hc
        have hmore : more.1.Linked := ih (h.addEdge hm) hr
        rwa [← hc]

theorem Linked.map_createEdges (h : s.Linked) {batch : List Edge} {s' : Store μ}
    (hc : (s.createEdges batch).map (·.1) = .ok s') : s'.Linked := by
  cases hr : s.createEdges batch with
  | error err =>
    rw [hr] at hc
    cases hc
  | ok r =>
    rw [hr] at hc
    cases hc
    exact h.createEdges hr

theorem Linked.record (h : s.Linked) {rows : List LedgerRow} {s' : Store μ}
    (hr : s.record rows = .ok s') : s'.Linked := by
  rw [record_eq] at hr
  split_ifs at hr with hall
  cases hr
  refine ⟨⟨h.keyed.own, h.keyed.tagged⟩, h.finite, h.edges, fun pair hpair => ?_⟩
  rcases (contains_ledger_note s rows pair).1 hpair with hmem | hold
  · obtain ⟨row, hrow, rfl⟩ := List.mem_map.1 hmem
    exact List.all_eq_true.1 hall row hrow
  · exact h.ledger pair hold

theorem Linked.resetLedger (h : s.Linked) : s.resetLedger.Linked :=
  ⟨⟨h.keyed.own, h.keyed.tagged⟩, h.finite, h.edges, fun _ hpair => by cases hpair⟩

/-- **A change leads from agreeing tables to agreeing tables.** -/
theorem Linked.apply (h : s.Linked) {c : Change μ} {s' : Store μ} (hc : c.apply s = .ok s') :
    s'.Linked := by
  cases c with
  | mergeNode n => cases hc; exact h.mergeNode n
  | mergeNodes batch => cases hc; exact h.mergeNodes batch
  | delete id => cases hc; exact h.delete id
  | createEdge e => exact h.map_createEdges hc
  | createEdges batch => exact h.map_createEdges hc
  | record rows => exact h.record hc
  | resetLedger => cases hc; exact h.resetLedger
  | clear => cases hc; exact linked_empty

theorem Linked.after (h : s.Linked) (a : Attempt μ) : (s.after a).Linked := by
  rcases s.after_cases a with heq | ⟨-, hok⟩
  · rw [heq]
    exact h
  · exact h.apply hok

theorem linked_built (history : List (Attempt μ)) : (built history).Linked := by
  have hrun : ∀ s : Store μ, s.Linked → (history.foldl Store.after s).Linked := by
    induction history with
    | nil => exact fun s h => h
    | cons a rest ih => exact fun s h => ih _ (h.after a)
  exact hrun empty linked_empty

end Linked

/-! ## 3. What a store answers -/

/-- Stored nodes by id, none of them twice. -/
structure Listing (s : Store μ) (nodes : List (Node μ)) : Prop where
  stored : ∀ n ∈ nodes, s.node? n.id = some n
  ascending : nodes.Pairwise fun a b => compare a.id b.id = .lt

theorem Listing.filter {s : Store μ} {nodes : List (Node μ)} (h : s.Listing nodes)
    (keep : Node μ → Bool) : s.Listing (nodes.filter keep) where
  stored n hn := h.stored n (List.mem_filter.1 hn).1
  ascending := h.ascending.filter keep

theorem Keyed.listing {s : Store μ} (h : s.Keyed) : s.Listing s.allNodes where
  stored n hn := h.mem_allNodes.1 hn
  ascending := by
    rw [allNodes, Table.values, List.pairwise_map]
    refine s.nodes.ascending.imp_of_mem fun {a b} ha hb hlt => ?_
    have hid : ∀ row ∈ s.nodes.rows, row.2.id = row.1 := fun row hrow =>
      h.own row.1 row.2 ((s.get?_nodes row.1).symm.trans (Table.mem_rows.1 hrow))
    rwa [hid a ha, hid b hb]

theorem Keyed.listing_nodesByTags {s : Store μ} (h : s.Keyed) (kind : Option String)
    (tags : List String) (mode : TagMatch) : s.Listing (s.nodesByTags kind tags mode) := by
  unfold nodesByTags
  dsimp only
  split_ifs
  · cases mode with
    | any => exact ⟨by simp, by simp⟩
    | all =>
      cases kind with
      | none => exact h.listing
      | some kind => exact h.listing.filter _
  · exact h.listing.filter _

/-- A property is looked up and answered in order, unless the path has a NUL outside of quotes. -/
theorem Keyed.nodesWithProperty {s : Store μ} (h : s.Keyed) (path : String) (value : Value) :
    (∃ nodes, s.nodesWithProperty path value = .ok nodes ∧ s.Listing nodes) ∨
      (s.nodesWithProperty path value = .error (badPathError path) ∧
        '\"' ∉ path.toList ∧ ∃ c ∈ path.toList, c.toNat = 0) := by
  unfold Store.nodesWithProperty
  simp only
  split_ifs with hquote hnul hempty
  · exact .inl ⟨_, rfl, h.listing.filter _⟩
  · exact .inl ⟨_, rfl, by simp, by simp⟩
  · exact .inr ⟨rfl, by simpa using hquote, by simpa using hnul⟩
  · exact .inl ⟨_, rfl, (h.listing.filter _).filter _⟩

/-- Edges are unique by their two ends and their kind. -/
theorem ascending_allEdges (s : Store μ) :
    s.allEdges.Pairwise fun a b => compare a.key b.key = .lt := by
  rw [allEdges, List.pairwise_map]
  exact s.edges.ascending

/-- What the order of all edges says about two of them. -/
theorem lt_iff_key {a b : Edge} :
    compare a.key b.key = .lt ↔
      (compare a.source b.source).then ((compare a.target b.target).then (compare a.kind b.kind)) = .lt :=
  Iff.rfl

/-- Edges that are selected by one field agree in it. -/
theorem ascending_selected (s : Store μ) (field : Edge → String) (value : String) :
    (s.allEdges.filter (field · == value)).Pairwise fun a b =>
      field a = field b ∧ compare a.key b.key = .lt := by
  refine (s.ascending_allEdges.filter _).imp_of_mem fun {a b} ha hb hlt => ⟨?_, hlt⟩
  have ha := beq_iff_eq.1 (List.mem_filter.1 ha).2
  have hb := beq_iff_eq.1 (List.mem_filter.1 hb).2
  exact ha.trans hb.symm

theorem ascending_outgoing (s : Store μ) (id : String) : (s.outgoing id).Pairwise fun a b =>
    (compare a.target b.target).then (compare a.kind b.kind) = .lt := by
  refine (s.ascending_selected Edge.source id).imp fun {a b} h => ?_
  have hlt := h.2
  rwa [lt_iff_key, h.1, Std.compare_self] at hlt

theorem ascending_incoming (s : Store μ) (id : String) : (s.incoming id).Pairwise fun a b =>
    (compare a.source b.source).then (compare a.kind b.kind) = .lt := by
  refine (s.ascending_selected Edge.target id).imp fun {a b} h => ?_
  have hlt := h.2
  rwa [lt_iff_key, h.1, Std.compare_self] at hlt

theorem ascending_edgesOfKind (s : Store μ) (kind : String) :
    (s.edgesOfKind kind).Pairwise fun a b =>
      (compare a.source b.source).then (compare a.target b.target) = .lt := by
  refine (s.ascending_selected Edge.kind kind).imp fun {a b} h => ?_
  have hlt := h.2
  rwa [lt_iff_key, h.1, Std.compare_self, Ordering.then_eq] at hlt

theorem ascending_ledgerRows (s : Store μ) : s.ledgerRows.Pairwise fun a b =>
    (compare a.pair.analyzer b.pair.analyzer).then (compare a.pair.node b.pair.node) = .lt := by
  rw [ledgerRows, List.pairwise_map]
  exact s.ledger.ascending

theorem mem_allEdges {s : Store μ} {e : Edge} (h : e ∈ s.allEdges) :
    s.edges.contains e.key = true := by
  obtain ⟨row, hrow, rfl⟩ := List.mem_map.1 h
  exact Table.contains_iff.2 ⟨row.2, Table.mem_rows.1 hrow⟩

theorem mem_ledgerRows {s : Store μ} {row : LedgerRow} (h : row ∈ s.ledgerRows) :
    s.ledger.contains row.pair = true := by
  obtain ⟨entry, hentry, rfl⟩ := List.mem_map.1 h
  exact Table.contains_iff.2 ⟨entry.2, Table.mem_rows.1 hentry⟩

theorem nodup_tagRows (s : Store μ) : s.tagRows.Nodup := by
  refine (Table.nodup_keys s.tags).map ?_
  rintro ⟨node, tag⟩ ⟨node', tag'⟩ heq
  obtain ⟨rfl, rfl⟩ := Prod.mk.inj heq
  rfl

/-! ## 4. Integrity -/

/-- Nothing a store holds is there twice or refers to nothing, and no number in it is not finite. -/
structure Integrity [Measure μ] (s : Store μ) : Prop where
  /-- Ids are unique. -/
  ids : (s.allNodes.map Node.id).Nodup
  tags : s.tagRows.Nodup ∧ ∀ row ∈ s.tagRows, s.contains row.1 = true
  /-- Edges are unique by source, target and kind. -/
  edges : (s.allEdges.map Edge.key).Nodup
  ends : ∀ e ∈ s.allEdges, s.contains e.source = true ∧ s.contains e.target = true
  /-- Ledger rows are unique by analyzer and node. -/
  ledger : (s.ledgerRows.map LedgerRow.pair).Nodup
  finished : ∀ row ∈ s.ledgerRows, s.contains row.pair.node = true
  metrics : ∀ n ∈ s.allNodes, ∀ key x, n.metrics.get? key = some x → Measure.isFinite x = true

/-- Every list that a store answers has its order, in which no two rows are equal. -/
structure Orderly (s : Store μ) : Prop where
  all : s.Listing s.allNodes ∧ ∀ n, n ∈ s.allNodes ↔ s.node? n.id = some n
  ofKind : ∀ kind, s.Listing (s.nodesOfKind kind)
  withTag : ∀ tag, s.Listing (s.nodesWithTag tag)
  withAnyTag : ∀ tags, s.Listing (s.nodesWithAnyTag tags)
  withAllTags : ∀ tags, s.Listing (s.nodesWithAllTags tags)
  ofKindWithTags : ∀ kind tags, s.Listing (s.nodesOfKindWithAnyTag kind tags) ∧
    s.Listing (s.nodesOfKindWithAllTags kind tags)
  /-- A query by property is answered, or its path cannot be read. -/
  withProperty : ∀ path value,
    (∃ nodes, s.nodesWithProperty path value = .ok nodes ∧ s.Listing nodes) ∨
      (s.nodesWithProperty path value = .error (badPathError path) ∧
        '\"' ∉ path.toList ∧ ∃ c ∈ path.toList, c.toNat = 0)
  outgoing : ∀ id, (s.outgoing id).Pairwise fun a b =>
    (compare a.target b.target).then (compare a.kind b.kind) = .lt
  incoming : ∀ id, (s.incoming id).Pairwise fun a b =>
    (compare a.source b.source).then (compare a.kind b.kind) = .lt
  edgesOfKind : ∀ kind, (s.edgesOfKind kind).Pairwise fun a b =>
    (compare a.source b.source).then (compare a.target b.target) = .lt
  ledger : s.ledgerRows.Pairwise fun a b =>
    (compare a.pair.analyzer b.pair.analyzer).then (compare a.pair.node b.pair.node) = .lt

theorem Linked.integrity [Measure μ] {s : Store μ} (h : s.Linked) : s.Integrity where
  ids := h.keyed.nodup_ids
  tags := by
    refine ⟨s.nodup_tagRows, fun row hrow => ?_⟩
    obtain ⟨t, ht, rfl⟩ := List.mem_map.1 hrow
    exact h.keyed.tagged t (KeySet.mem_members.1 ht)
  edges := by
    have hkeys : s.allEdges.map Edge.key = s.edges.keys := by
      rw [allEdges, List.map_map]
      rfl
    rw [hkeys]
    exact Table.nodup_keys s.edges
  ends e he := h.edges e.key (mem_allEdges he)
  ledger := by
    have hpairs : s.ledgerRows.map LedgerRow.pair = s.ledger.keys := by
      rw [ledgerRows, List.map_map]
      rfl
    rw [hpairs]
    exact Table.nodup_keys s.ledger
  finished row hrow := h.ledger row.pair (mem_ledgerRows hrow)
  metrics n hn := h.finite n.id n (h.keyed.mem_allNodes.1 hn)

theorem Keyed.orderly {s : Store μ} (h : s.Keyed) : s.Orderly where
  all := ⟨h.listing, fun _ => h.mem_allNodes⟩
  ofKind _ := h.listing.filter _
  withTag _ := h.listing_nodesByTags _ _ _
  withAnyTag _ := h.listing_nodesByTags _ _ _
  withAllTags _ := h.listing_nodesByTags _ _ _
  ofKindWithTags _ _ := ⟨h.listing_nodesByTags _ _ _, h.listing_nodesByTags _ _ _⟩
  withProperty := h.nodesWithProperty
  outgoing := s.ascending_outgoing
  incoming := s.ascending_incoming
  edgesOfKind := s.ascending_edgesOfKind
  ledger := s.ascending_ledgerRows

/-- **Every history leaves a store of integrity**, whichever of its attempts failed; what it answers
is in order; and writing nodes again keeps all edges and ledger rows. -/
theorem integrity_of_history [Measure μ] (history : List (Attempt μ)) :
    (built history).Integrity ∧ (built history).Orderly ∧
      ∀ batch : List (Node μ),
        ((built history).mergeNodes batch).allEdges = (built history).allEdges ∧
          ((built history).mergeNodes batch).ledgerRows = (built history).ledgerRows := by
  have hlinked := linked_built history
  refine ⟨hlinked.integrity, hlinked.keyed.orderly, fun batch => ⟨?_, ?_⟩⟩
  · rw [allEdges, edges_mergeNodes, allEdges]
  · rw [ledgerRows, ledger_mergeNodes, ledgerRows]

end Store

end FactGraph
