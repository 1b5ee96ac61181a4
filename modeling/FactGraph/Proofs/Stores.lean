import FactGraph.Findings
import FactGraph.Store.Query
import FactGraph.Proofs.Tables

/-!
# Writing to a store

What each write does to the views of a store, and what storage guarantees about every store: each
node stands under its own id and each tag belongs to a stored node (`Store.Keyed`), and no metric is
kept that is not finite (`Store.FiniteMetrics`).  Both hold of the empty store and survive every
write.

The tags stand in a table of their own, and a node is put together from two tables.  `Store.nodes` is
that join.  Writing a node replaces it in the join, whatever was assigned to its id before
(`Store.nodes_mergeNode`), and a store in order is no more than its join, its edges and its ledger
(`Store.Keyed.ext_nodes`).

A batch is described by its whole effect, not write by write: nodes written under their own ids are
an overlay (`Store.nodes_mergeNodes_values`), ledger rows are written if all their nodes are stored
and refused otherwise (`Store.record_eq`), and edges whose ends are stored are never refused
(`Store.createEdges_eq`).
-/

namespace FactGraph

open Std

/-! ## 1. Nodes -/

namespace Node

variable {μ : Type}

theorem hasTag_absorb {n newer : Node μ} {tag : String} :
    (n.absorb newer).hasTag tag = true ↔ n.hasTag tag = true ∨ newer.hasTag tag = true :=
  KeySet.contains_union n.tags newer.tags tag

theorem get?_metrics_stored [Measure μ] (n : Node μ) (key : String) :
    n.stored.metrics.get? key =
      ((n.metrics.get? key).filter (Measure.isFinite ·)).map Measure.stored := by
  rw [stored, Table.get?_mapValues, Table.get?_filter]

/-- Only finite metrics are kept, and what is kept is finite. -/
theorem isFinite_of_stored [Measure μ] {n : Node μ} {key : String} {x : μ}
    (h : n.stored.metrics.get? key = some x) : Measure.isFinite x = true := by
  rw [get?_metrics_stored, Option.map_eq_some_iff] at h
  obtain ⟨y, hy, rfl⟩ := h
  exact Measure.isFinite_stored (Option.filter_eq_some_iff.mp hy).2

theorem contains_properties_stored [Measure μ] (n : Node μ) (key : String) :
    n.stored.properties.contains key = n.properties.contains key :=
  Table.contains_mapValues n.properties _ key

/-- A metric is kept if it is finite. -/
theorem contains_metrics_stored [Measure μ] {n : Node μ} {key : String} {x : μ}
    (h : n.metrics.get? key = some x) (hx : Measure.isFinite x = true) :
    n.stored.metrics.contains key = true := by
  rw [Table.contains, get?_metrics_stored, h, Option.filter_some_pos hx]
  rfl

/-- An amount that storage keeps is read as it was, also where nothing stands for zero. -/
theorem getD_metrics_stored [Measure μ] {n : Node μ} {key : String} {x : μ}
    (h : (n.metrics.get? key).getD Measure.zero = x) (hfinite : Measure.isFinite x = true)
    (hstored : Measure.stored x = x) : (n.stored.metrics.get? key).getD Measure.zero = x := by
  rw [get?_metrics_stored]
  cases hy : n.metrics.get? key with
  | none =>
    rw [hy] at h
    exact h
  | some y =>
    rw [hy, Option.getD_some] at h
    rw [h, Option.filter_some_pos hfinite, Option.map_some, Option.getD_some, hstored]

end Node

namespace Patch

variable {μ : Type} [Measure μ]

/-- The part of a node that sums never touch. -/
theorem foldl_addSum (rows : List (String × Tally μ)) (n : Node μ) :
    (rows.foldl (fun n row => addSum n row.1 row.2) n).id = n.id ∧
      (rows.foldl (fun n row => addSum n row.1 row.2) n).kind = n.kind ∧
      (rows.foldl (fun n row => addSum n row.1 row.2) n).tags = n.tags := by
  induction rows generalizing n with
  | nil => exact ⟨rfl, rfl, rfl⟩
  | cons row rest ih =>
    rw [List.foldl_cons]
    exact ih (addSum n row.1 row.2)

@[simp] theorem id_apply (p : Patch μ) (n : Node μ) : (p.apply n).id = n.id :=
  (foldl_addSum p.sums.rows _).1

@[simp] theorem kind_apply (p : Patch μ) (n : Node μ) : (p.apply n).kind = n.kind :=
  (foldl_addSum p.sums.rows _).2.1

@[simp] theorem tags_apply (p : Patch μ) (n : Node μ) : (p.apply n).tags = n.tags.union p.tags :=
  (foldl_addSum p.sums.rows _).2.2

theorem hasTag_apply {p : Patch μ} {n : Node μ} {tag : String} :
    (p.apply n).hasTag tag = true ↔ n.hasTag tag = true ∨ p.tags.contains tag = true := by
  rw [Node.hasTag, tags_apply]
  exact KeySet.contains_union n.tags p.tags tag

end Patch

namespace Store

variable {μ : Type}

/-! ## 2. Rows and tags -/

theorem contains_tagsOf {s : Store μ} {id tag : String} :
    (s.tagsOf id).contains tag = true ↔ s.tags.contains ⟨id, tag⟩ = true := by
  rw [tagsOf, KeySet.contains_ofMembers, List.mem_map]
  constructor
  · rintro ⟨⟨node, tag'⟩, ht, rfl⟩
    obtain ⟨hmember, hnode⟩ := List.mem_filter.mp ht
    obtain rfl : node = id := beq_iff_eq.mp hnode
    exact KeySet.mem_members.mp hmember
  · intro h
    exact ⟨⟨id, tag⟩, List.mem_filter.mpr ⟨KeySet.mem_members.mpr h, beq_self_eq_true id⟩, rfl⟩

theorem get?_nodes (s : Store μ) (id : String) : s.nodes.get? id = s.node? id :=
  Table.get?_mapValues s.rows _ id

theorem tags_of_node? {s : Store μ} {id : String} {n : Node μ} (h : s.node? id = some n) :
    n.tags = s.tagsOf id := by
  obtain ⟨row, -, rfl⟩ := Option.map_eq_some_iff.mp h
  rfl

theorem contains_eq_isSome (s : Store μ) (id : String) : s.contains id = (s.node? id).isSome := by
  rw [node?, Option.isSome_map]
  rfl

theorem contains_iff {s : Store μ} {id : String} :
    s.contains id = true ↔ ∃ n, s.node? id = some n := by
  rw [contains_eq_isSome, Option.isSome_iff_exists]

theorem contains_nodes (s : Store μ) (id : String) : s.nodes.contains id = s.contains id :=
  Table.contains_mapValues s.rows _ id

/-- The rows are what the nodes are without their tags. -/
theorem rows_eq (s : Store μ) : s.rows = s.nodes.mapValues fun _ n => n.row := by
  refine Table.ext_get? fun id => ?_
  rw [Table.get?_mapValues, get?_nodes, node?, Option.map_map]
  exact Option.map_id'.symm

theorem size_nodes (s : Store μ) : s.nodes.size = s.rows.size := List.length_map _

theorem mem_allNodes_of_node? {s : Store μ} {id : String} {n : Node μ} (h : s.node? id = some n) :
    n ∈ s.allNodes :=
  Table.mem_values.mpr ⟨id, (s.get?_nodes id).trans h⟩

theorem mem_allNodes_of_mem_nodesWithTag {s : Store μ} {tag : String} {n : Node μ}
    (h : n ∈ s.nodesWithTag tag) : n ∈ s.allNodes := by
  rw [nodesWithTag, nodesByTags] at h
  dsimp only at h
  split_ifs at h
  · cases h
  · exact (List.mem_filter.mp h).1

/-! ## 3. What storage guarantees -/

/-- Each node stands under its own id, and each tag belongs to a stored node. -/
structure Keyed (s : Store μ) : Prop where
  own : ∀ id n, s.node? id = some n → n.id = id
  tagged : ∀ t, s.tags.contains t = true → s.contains t.node = true

/-- No metric is kept that is not finite. -/
def FiniteMetrics [Measure μ] (s : Store μ) : Prop :=
  ∀ id n, s.node? id = some n → ∀ key x, n.metrics.get? key = some x → Measure.isFinite x = true

/-- In a keyed store a node is listed exactly when it is found under its id. -/
theorem Keyed.mem_allNodes {s : Store μ} (hs : s.Keyed) {n : Node μ} :
    n ∈ s.allNodes ↔ s.node? n.id = some n := by
  rw [allNodes, Table.mem_values]
  simp only [get?_nodes]
  constructor
  · rintro ⟨id, hid⟩
    rw [hs.own id n hid]
    exact hid
  · intro h
    exact ⟨n.id, h⟩

theorem Keyed.map_id_allNodes {s : Store μ} (hs : s.Keyed) :
    s.allNodes.map Node.id = s.nodes.keys := by
  rw [allNodes, Table.values, Table.keys, List.map_map]
  refine List.map_congr_left ?_
  rintro ⟨id, n⟩ hrow
  exact hs.own id n ((s.get?_nodes id).symm.trans (Table.mem_rows.mp hrow))

/-- No id is listed twice. -/
theorem Keyed.nodup_ids {s : Store μ} (hs : s.Keyed) : (s.allNodes.map Node.id).Nodup := by
  rw [hs.map_id_allNodes]
  exact Table.nodup_keys s.nodes

theorem Keyed.mem_ids {s : Store μ} (hs : s.Keyed) {id : String} (hid : s.contains id = true) :
    id ∈ s.allNodes.map Node.id := by
  rw [hs.map_id_allNodes, Table.mem_keys, contains_nodes]
  exact hid

/-- A store with other rows, one for each. -/
def mapRows (s : Store μ) (f : String → Row μ → Row μ) : Store μ :=
  { s with rows := s.rows.mapValues f }

theorem node?_mapRows (s : Store μ) (f : String → Row μ → Row μ) (id : String) :
    (s.mapRows f).node? id = (s.rows.get? id).map fun row => (f id row).node (s.tagsOf id) := by
  rw [node?, mapRows, Table.get?_mapValues, Option.map_map]
  rfl

theorem nodes_mapRows (s : Store μ) {f : String → Row μ → Row μ} {g : String → Node μ → Node μ}
    (h : ∀ id row tags, (f id row).node tags = g id (row.node tags)) :
    (s.mapRows f).nodes = s.nodes.mapValues g := by
  refine Table.ext_get? fun id => ?_
  rw [get?_nodes, node?_mapRows, Table.get?_mapValues, get?_nodes, node?, Option.map_map]
  simp only [h, Function.comp_def]

theorem Keyed.mapRows {s : Store μ} (hs : s.Keyed) {f : String → Row μ → Row μ}
    (h : ∀ id row, (f id row).id = row.id) : (s.mapRows f).Keyed where
  own id n hn := by
    rw [node?_mapRows] at hn
    obtain ⟨row, hrow, rfl⟩ := Option.map_eq_some_iff.mp hn
    exact (h id row).trans (hs.own id _ (Option.map_eq_some_iff.mpr ⟨row, hrow, rfl⟩))
  tagged t ht := (Table.contains_mapValues s.rows f t.node).trans (hs.tagged t ht)

/-- A tag is assigned to an id exactly if the node of that id has it. -/
theorem Keyed.contains_tags {s : Store μ} (hs : s.Keyed) {t : Tagging} :
    s.tags.contains t = true ↔ ∃ n, s.node? t.node = some n ∧ n.hasTag t.tag = true := by
  constructor
  · intro h
    obtain ⟨n, hn⟩ := contains_iff.mp (hs.tagged t h)
    refine ⟨n, hn, ?_⟩
    rw [Node.hasTag, tags_of_node? hn]
    exact contains_tagsOf.mpr h
  · rintro ⟨n, hn, htag⟩
    rw [Node.hasTag, tags_of_node? hn] at htag
    exact contains_tagsOf.mp htag

/-- **A keyed store is its nodes, its edges and its ledger.** -/
theorem Keyed.ext_nodes {s t : Store μ} (hs : s.Keyed) (ht : t.Keyed) (hnodes : s.nodes = t.nodes)
    (hedges : s.edges = t.edges) (hledger : s.ledger = t.ledger) : s = t := by
  have hrows : s.rows = t.rows := by rw [rows_eq, hnodes, ← rows_eq]
  have htags : s.tags = t.tags := by
    refine KeySet.ext_contains fun assigned => ?_
    rw [hs.contains_tags, ht.contains_tags, ← get?_nodes, hnodes, get?_nodes]
  cases s
  cases t
  simp_all

theorem keyed_empty : (empty : Store μ).Keyed where
  own _ _ h := by cases h
  tagged _ h := by cases h

theorem finiteMetrics_empty [Measure μ] : (empty : Store μ).FiniteMetrics := by
  intro id n h
  cases h

/-! ## 4. Writing nodes -/

section Nodes

variable [Measure μ]

theorem contains_mergeNode (s : Store μ) (n : Node μ) (id : String) :
    (s.mergeNode n).contains id = true ↔ id = n.id ∨ s.contains id = true :=
  Table.contains_insert s.rows n.id id n.stored.row

omit [Measure μ] in
theorem contains_tagsWithout (s : Store μ) (id : String) (t : Tagging) :
    (s.tagsWithout id).contains t = true ↔ t.node ≠ id ∧ s.tags.contains t = true := by
  rw [tagsWithout, Table.contains_iff, Table.contains_iff]
  simp only [Table.get?_filter, Option.filter_eq_some_iff, bne_iff_ne]
  exact ⟨fun ⟨u, hu, hne⟩ => ⟨hne, u, hu⟩, fun ⟨hne, u, hu⟩ => ⟨u, hu, hne⟩⟩

/-- Writing a node assigns its tags to its id, and no others. -/
theorem contains_tags_mergeNode (s : Store μ) (n : Node μ) (t : Tagging) :
    (s.mergeNode n).tags.contains t = true ↔
      if t.node = n.id then n.hasTag t.tag = true else s.tags.contains t = true := by
  have hfold : (s.mergeNode n).tags =
      (n.tags.members.map (Tagging.mk n.id)).foldl KeySet.add (s.tagsWithout n.id) := by
    rw [List.foldl_map]
    rfl
  rw [hfold, KeySet.contains_foldl_add, contains_tagsWithout, List.mem_map]
  simp only [KeySet.mem_members]
  obtain ⟨node, tag⟩ := t
  by_cases h : node = n.id
  · subst h
    simp [Node.hasTag]
  · have hne : ∀ tag', ¬ (Tagging.mk n.id tag' = ⟨node, tag⟩) := by
      rintro tag' ⟨⟩
      exact h rfl
    simp [h, hne]

theorem tagsOf_mergeNode (s : Store μ) (n : Node μ) (id : String) :
    (s.mergeNode n).tagsOf id = if id = n.id then n.tags else s.tagsOf id := by
  refine KeySet.ext_contains fun tag => ?_
  rw [contains_tagsOf, contains_tags_mergeNode]
  split_ifs with h
  · exact Iff.rfl
  · exact contains_tagsOf.symm

theorem node?_mergeNode (s : Store μ) (n : Node μ) (id : String) :
    (s.mergeNode n).node? id = if id = n.id then some n.stored else s.node? id := by
  rw [node?, tagsOf_mergeNode, mergeNode, Table.get?_insert]
  simp only [Std.compare_eq_iff_eq]
  split_ifs with h
  · rfl
  · rfl

/-- **Writing a node replaces it**, with its tags. -/
theorem nodes_mergeNode (s : Store μ) (n : Node μ) :
    (s.mergeNode n).nodes = s.nodes.insert n.id n.stored := by
  refine Table.ext_get? fun id => ?_
  rw [get?_nodes, node?_mergeNode, Table.get?_insert, get?_nodes]
  simp only [Std.compare_eq_iff_eq]

theorem Keyed.mergeNode {s : Store μ} (hs : s.Keyed) (n : Node μ) : (s.mergeNode n).Keyed where
  own id m hm := by
    rw [node?_mergeNode] at hm
    split at hm
    · next h =>
      cases hm
      exact h.symm
    · exact hs.own id m hm
  tagged t ht := by
    rw [contains_tags_mergeNode] at ht
    rw [contains_mergeNode]
    split_ifs at ht with h
    · exact .inl h
    · exact .inr (hs.tagged t ht)

theorem Keyed.mergeNodes {s : Store μ} (hs : s.Keyed) (batch : List (Node μ)) :
    (s.mergeNodes batch).Keyed := by
  induction batch generalizing s with
  | nil => exact hs
  | cons n rest ih => exact ih (hs.mergeNode n)

theorem FiniteMetrics.mergeNode {s : Store μ} (hs : s.FiniteMetrics) (n : Node μ) :
    (s.mergeNode n).FiniteMetrics := by
  intro id m hm key x hx
  rw [node?_mergeNode] at hm
  split at hm
  · cases hm
    exact Node.isFinite_of_stored hx
  · exact hs id m hm key x hx

theorem FiniteMetrics.mergeNodes {s : Store μ} (hs : s.FiniteMetrics) (batch : List (Node μ)) :
    (s.mergeNodes batch).FiniteMetrics := by
  induction batch generalizing s with
  | nil => exact hs
  | cons n rest ih => exact ih (hs.mergeNode n)

@[simp] theorem edges_mergeNodes (s : Store μ) (batch : List (Node μ)) :
    (s.mergeNodes batch).edges = s.edges := by
  induction batch generalizing s with
  | nil => rfl
  | cons n rest ih => exact ih (s.mergeNode n)

@[simp] theorem ledger_mergeNodes (s : Store μ) (batch : List (Node μ)) :
    (s.mergeNodes batch).ledger = s.ledger := by
  induction batch generalizing s with
  | nil => rfl
  | cons n rest ih => exact ih (s.mergeNode n)

theorem mergeNodes_append (s : Store μ) (a b : List (Node μ)) :
    s.mergeNodes (a ++ b) = (s.mergeNodes a).mergeNodes b :=
  List.foldl_append

/-- A batch leaves alone what it does not hold. -/
theorem node?_mergeNodes_of_not_mem (s : Store μ) {batch : List (Node μ)} {id : String}
    (h : id ∉ batch.map Node.id) : (s.mergeNodes batch).node? id = s.node? id := by
  induction batch generalizing s with
  | nil => rfl
  | cons n rest ih =>
    rw [List.map_cons, List.mem_cons, not_or] at h
    have hrest : ((s.mergeNode n).mergeNodes rest).node? id = (s.mergeNode n).node? id := ih _ h.2
    rw [node?_mergeNode, if_neg h.1] at hrest
    exact hrest

/-- A node of a batch without repetitions is stored. -/
theorem node?_mergeNodes_of_mem (s : Store μ) {batch : List (Node μ)} {n : Node μ}
    (hnodup : (batch.map Node.id).Nodup) (h : n ∈ batch) :
    (s.mergeNodes batch).node? n.id = some n.stored := by
  induction batch generalizing s with
  | nil => cases h
  | cons m rest ih =>
    rw [List.map_cons, List.nodup_cons] at hnodup
    rcases List.mem_cons.mp h with rfl | h
    · have hlast := node?_mergeNodes_of_not_mem (s.mergeNode n) hnodup.1
      rw [node?_mergeNode, if_pos rfl] at hlast
      exact hlast
    · exact ih (s.mergeNode m) hnodup.2 h

theorem nodes_mergeNodes (s : Store μ) (batch : List (Node μ)) :
    (s.mergeNodes batch).nodes = batch.foldl (fun t n => t.insert n.id n.stored) s.nodes := by
  induction batch generalizing s with
  | nil => rfl
  | cons n rest ih =>
    have hrest := ih (s.mergeNode n)
    rw [nodes_mergeNode] at hrest
    exact hrest

/-- **A table of nodes is written as an overlay**, if its nodes stand under their own ids. -/
theorem nodes_mergeNodes_values (s : Store μ) (t : Table String (Node μ))
    (ht : ∀ id n, t.get? id = some n → n.id = id) :
    (s.mergeNodes t.values).nodes = s.nodes.overlay (t.mapValues fun _ n => n.stored) := by
  have hrows : ∀ row ∈ t.rows, row.2.id = row.1 := fun row hrow =>
    ht row.1 row.2 (Table.mem_rows.mp hrow)
  rw [nodes_mergeNodes, Table.overlay, Table.values, Table.mapValues, List.foldl_map,
    List.foldl_map]
  refine List.foldl_ext _ _ _ fun nodes row hrow => ?_
  rw [hrows row hrow]

theorem node?_mergeNodes_values (s : Store μ) (t : Table String (Node μ))
    (ht : ∀ id n, t.get? id = some n → n.id = id) (id : String) :
    (s.mergeNodes t.values).node? id = ((t.get? id).map Node.stored).or (s.node? id) := by
  rw [← get?_nodes, nodes_mergeNodes_values s t ht, Table.get?_overlay, Table.get?_mapValues,
    get?_nodes]

end Nodes

/-! ## 5. Writing edges -/

@[simp] theorem nodes_addEdge (s : Store μ) (e : Edge) : (s.addEdge e).1.nodes = s.nodes := by
  rw [addEdge]
  split <;> rfl

@[simp] theorem contains_addEdge (s : Store μ) (e : Edge) (id : String) :
    (s.addEdge e).1.contains id = s.contains id := by
  rw [← contains_nodes, nodes_addEdge, contains_nodes]

@[simp] theorem ledger_addEdge (s : Store μ) (e : Edge) : (s.addEdge e).1.ledger = s.ledger := by
  rw [addEdge]
  split <;> rfl

/-- Write edges without looking at their ends, and count the new ones. -/
def addEdges (s : Store μ) : List Edge → Store μ × Nat
  | [] => (s, 0)
  | e :: rest =>
    let more := (s.addEdge e).1.addEdges rest
    (more.1, (s.addEdge e).2 + more.2)

/-- Whether both ends of an edge are stored. -/
def holdsEnds (s : Store μ) (e : Edge) : Bool := s.contains e.source && s.contains e.target

theorem addEdges_append (s : Store μ) (a b : List Edge) :
    s.addEdges (a ++ b) =
      (((s.addEdges a).1.addEdges b).1, (s.addEdges a).2 + ((s.addEdges a).1.addEdges b).2) := by
  induction a generalizing s with
  | nil => simp [addEdges]
  | cons e rest ih => simp [addEdges, ih, Nat.add_assoc]

@[simp] theorem nodes_addEdges (s : Store μ) (edges : List Edge) :
    (s.addEdges edges).1.nodes = s.nodes := by
  induction edges generalizing s with
  | nil => rfl
  | cons e rest ih => rw [addEdges, ih, nodes_addEdge]

@[simp] theorem contains_addEdges (s : Store μ) (edges : List Edge) (id : String) :
    (s.addEdges edges).1.contains id = s.contains id := by
  rw [← contains_nodes, nodes_addEdges, contains_nodes]

@[simp] theorem node?_addEdges (s : Store μ) (edges : List Edge) (id : String) :
    (s.addEdges edges).1.node? id = s.node? id := by
  rw [← get?_nodes, nodes_addEdges, get?_nodes]

@[simp] theorem tags_addEdges (s : Store μ) (edges : List Edge) :
    (s.addEdges edges).1.tags = s.tags := by
  induction edges generalizing s with
  | nil => rfl
  | cons e rest ih =>
    rw [addEdges, ih, addEdge]
    split <;> rfl

theorem Keyed.addEdges {s : Store μ} (hs : s.Keyed) (edges : List Edge) :
    (s.addEdges edges).1.Keyed where
  own id n hn := by
    rw [node?_addEdges] at hn
    exact hs.own id n hn
  tagged t ht := by
    rw [tags_addEdges] at ht
    rw [contains_addEdges]
    exact hs.tagged t ht

@[simp] theorem ledger_addEdges (s : Store μ) (edges : List Edge) :
    (s.addEdges edges).1.ledger = s.ledger := by
  induction edges generalizing s with
  | nil => rfl
  | cons e rest ih => rw [addEdges, ih, ledger_addEdge]

/-- New edges do not depend on nodes. -/
theorem edges_addEdges_congr {s t : Store μ} (h : s.edges = t.edges) (edges : List Edge) :
    (s.addEdges edges).1.edges = (t.addEdges edges).1.edges := by
  induction edges generalizing s t with
  | nil => exact h
  | cons e rest ih =>
    rw [addEdges, addEdges]
    refine ih ?_
    rw [addEdge, addEdge, h]
    split
    · exact h
    · rfl

/-- **Edges whose ends are stored are never refused.** -/
theorem createEdges_eq (s : Store μ) {edges : List Edge} (h : ∀ e ∈ edges, s.holdsEnds e = true) :
    s.createEdges edges = .ok (s.addEdges edges) := by
  induction edges generalizing s with
  | nil => rfl
  | cons e rest ih =>
    have he := h e List.mem_cons_self
    rw [holdsEnds, Bool.and_eq_true] at he
    have hmissing : s.missingEnd? e = none := by
      rw [missingEnd?, he.1, he.2]
      rfl
    have hrest : ∀ e' ∈ rest, (s.addEdge e).1.holdsEnds e' = true := by
      intro e' he'
      have := h e' (List.mem_cons_of_mem _ he')
      rw [holdsEnds, contains_addEdge, contains_addEdge]
      exact this
    rw [createEdges, hmissing, addEdges]
    dsimp only
    rw [ih _ hrest]
    rfl

/-! ## 6. Writing the ledger -/

/-- Write ledger rows without looking at their nodes. -/
def note (s : Store μ) (rows : List LedgerRow) : Store μ :=
  { s with ledger := rows.foldl (fun t row => t.insert row.pair row.finish) s.ledger }

theorem Keyed.note {s : Store μ} (hs : s.Keyed) (rows : List LedgerRow) : (s.note rows).Keyed :=
  ⟨hs.own, hs.tagged⟩

/-- The pairs that the ledger holds. -/
def finished (s : Store μ) : KeySet Pair := s.ledger.mapValues fun _ _ => ()

/-- **Ledger rows are written when all their nodes are stored, and refused as a whole
otherwise.** -/
theorem record_eq (s : Store μ) (rows : List LedgerRow) :
    s.record rows =
      if rows.all (fun row => s.contains row.pair.node) then .ok (s.note rows)
      else .error danglingRowError := by
  induction rows generalizing s with
  | nil => rfl
  | cons row rest ih =>
    rw [record, List.all_cons]
    cases h : s.contains row.pair.node with
    | false => rfl
    | true =>
      rw [if_pos rfl, ih, Bool.true_and]
      rfl

theorem note_append (s : Store μ) (a b : List LedgerRow) : s.note (a ++ b) = (s.note a).note b := by
  rw [note, List.foldl_append]
  rfl

theorem contains_finished (s : Store μ) (pair : Pair) :
    s.finished.contains pair = s.ledger.contains pair :=
  Table.contains_mapValues s.ledger _ pair

theorem contains_ledger_note (s : Store μ) (rows : List LedgerRow) (pair : Pair) :
    (s.note rows).ledger.contains pair = true ↔
      pair ∈ rows.map LedgerRow.pair ∨ s.ledger.contains pair = true := by
  rw [note]
  induction rows generalizing s with
  | nil => simp
  | cons row rest ih =>
    have h := ih { s with ledger := s.ledger.insert row.pair row.finish }
    rw [List.foldl_cons, h, List.map_cons, List.mem_cons, Table.contains_insert]
    tauto

/-! ## 7. Counting facts -/

/-- As many tags stand under an id as its node has. -/
theorem size_tagsOf (s : Store μ) (id : String) :
    (s.tagsOf id).size = (s.tagRows.filter (·.1 == id)).length := by
  have hnodup : ((s.tags.members.filter (·.node == id)).map Tagging.tag).Nodup := by
    refine List.Nodup.map_on ?_ ((Table.nodup_keys s.tags).filter _)
    rintro ⟨node, tag⟩ ht ⟨node', tag'⟩ ht' rfl
    have h := beq_iff_eq.mp (List.mem_filter.mp ht).2
    have h' := beq_iff_eq.mp (List.mem_filter.mp ht').2
    rw [show node = node' from h.trans h'.symm]
  rw [tagsOf, KeySet.size_ofMembers hnodup, tagRows, List.filter_map, List.length_map,
    List.length_map]
  rfl

/-- **Each assignment is counted at one node**: its own, which is stored, and stored once. -/
theorem Keyed.length_tagRows {s : Store μ} (hs : s.Keyed) :
    s.tagRows.length = (s.allNodes.map (·.tags.size)).sum := by
  have hstored : ∀ row ∈ s.tagRows, row.1 ∈ s.allNodes.map Node.id := by
    intro row hrow
    obtain ⟨t, ht, rfl⟩ := List.mem_map.mp hrow
    exact hs.mem_ids (hs.tagged t (KeySet.mem_members.mp ht))
  rw [← sum_length_filter hs.nodup_ids Prod.fst hstored, List.map_map]
  refine congrArg List.sum (List.map_congr_left fun n hn => ?_)
  rw [tags_of_node? (hs.mem_allNodes.mp hn), size_tagsOf]
  rfl

/-- **Counting each kind of fact over the whole store is counting the facts of each node.** -/
theorem Keyed.factCount_eq {s : Store μ} (hs : s.Keyed) :
    s.factCount = (s.nodes.values.map Node.factCount).sum + s.edges.size := by
  have hrows : s.rows.values = s.allNodes.map Node.row := by
    rw [rows_eq, allNodes, Table.values, Table.values, Table.mapValues, List.map_map, List.map_map]
    rfl
  have hkeys : ∀ {α : Type} (t : Row μ → Table String α),
      (s.rows.values.flatMap fun row => (t row).keys).length =
        (s.allNodes.map fun n => (t n.row).size).sum := by
    intro α t
    simp [hrows, List.length_flatMap, Table.keys, Table.size, Function.comp_def]
  have hnodes : s.rows.size = (s.allNodes.map fun _ => 1).sum := by
    rw [← size_nodes]
    exact Table.size_eq_sum s.nodes
  have hsplit : (s.allNodes.map Node.factCount).sum =
      (s.allNodes.map fun _ => 1).sum + (s.allNodes.map (·.tags.size)).sum +
        (s.allNodes.map (·.properties.size)).sum + (s.allNodes.map (·.metrics.size)).sum := by
    rw [← List.sum_map_add, ← List.sum_map_add, ← List.sum_map_add]
    rfl
  rw [factCount, hs.length_tagRows, hkeys Row.properties, hkeys Row.metrics, hnodes]
  exact congrArg (· + s.edges.size) hsplit.symm

end Store

end FactGraph
