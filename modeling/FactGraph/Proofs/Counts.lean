import FactGraph.Proofs.TagQueries

/-!
# Counts

A store is counted in two ways.  Its statistics and its fact counter count rows of the whole store,
table by table; a node counts what it has gathered, and its edges are those that leave it.  Both ways
come to the same numbers.

That needs more than a sum taken in another order.  A tag assignment is counted at the node of its id
and an edge at its source, so the sums over all nodes are right only if every such id is stored, and
stored ONCE (`sum_length_filter`).  The first half is what a deletion could break, or a node that is
written again with other tags, and what a refused edge protects; the second is that ids are unique.
Both hold of every store with a history (`Store.Linked`).

`Store.Keyed.length_tagRows`, `Store.Keyed.factCount_eq` and `Store.Keyed.sum_length_selected` are the
three counts of one store, and `counts_of_history` puts them together.
-/

namespace FactGraph

open Std

/-- The size of a set is the number of its members. -/
theorem KeySet.encard_eq_size {κ : Type} [Ord κ] [TransOrd κ] [LawfulEqOrd κ] [DecidableEq κ]
    (s : KeySet κ) : {k | Table.contains s k = true}.encard = s.size := by
  have hset : {k | Table.contains s k = true} = (s.members.toFinset : Set κ) := by
    ext k
    simp [KeySet.mem_members]
  have hcard : s.members.toFinset.card = s.size := by
    rw [KeySet.members, List.toFinset_card_of_nodup (Table.nodup_keys s), Table.keys,
      List.length_map, Table.size]
  rw [hset, Set.encard_coe_eq_coe_finsetCard, hcard]

namespace Store

variable {μ : Type}

/-! ## 1. Edges at their ends -/

theorem length_allEdges (s : Store μ) : s.allEdges.length = s.edges.size := by
  simp [allEdges, Table.size]

/-- **Every edge is counted at exactly one node**, by whichever of its ends. -/
theorem Keyed.sum_length_selected {s : Store μ} (h : s.Keyed) (field : Edge → String)
    (hends : ∀ e ∈ s.allEdges, s.contains (field e) = true) :
    (s.allNodes.map fun n => (s.allEdges.filter (field · == n.id)).length).sum = s.edges.size := by
  have hsum := sum_length_filter h.nodup_ids field fun e he => h.mem_ids (hends e he)
  rw [List.map_map, length_allEdges] at hsum
  exact hsum

/-! ## 2. Different tags -/

/-- A tag is assigned to some id exactly if some node has it. -/
theorem Keyed.mem_tags_tagRows {s : Store μ} (hs : s.Keyed) {tag : String} :
    tag ∈ s.tagRows.map (·.2) ↔ ∃ n ∈ s.allNodes, n.hasTag tag = true := by
  rw [tagRows, List.map_map, List.mem_map]
  constructor
  · rintro ⟨t, ht, rfl⟩
    obtain ⟨n, hn, htag⟩ := hs.contains_tags.mp (KeySet.mem_members.mp ht)
    exact ⟨n, mem_allNodes_of_node? hn, htag⟩
  · rintro ⟨n, hn, htag⟩
    have ht : s.tags.contains ⟨n.id, tag⟩ = true :=
      hs.contains_tags.mpr ⟨n, hs.mem_allNodes.mp hn, htag⟩
    exact ⟨⟨n.id, tag⟩, KeySet.mem_members.mpr ht, rfl⟩

theorem Keyed.encard_tags {s : Store μ} (hs : s.Keyed) :
    {tag | ∃ n ∈ s.allNodes, n.hasTag tag = true}.encard = s.statistics.distinctTags := by
  have hset : {tag | ∃ n ∈ s.allNodes, n.hasTag tag = true} =
      {tag | Table.contains (KeySet.ofMembers (s.tagRows.map (·.2)) : Names) tag = true} := by
    ext tag
    simp only [Set.mem_ofPred_eq, KeySet.contains_ofMembers]
    exact hs.mem_tags_tagRows.symm
  rw [hset, KeySet.encard_eq_size]
  rfl

theorem length_allNodes (s : Store μ) : s.allNodes.length = s.rows.size := by
  rw [← size_nodes, allNodes, Table.values, List.length_map, Table.size]

/-! ## 3. Whatever the history -/

/-- **What is counted over the store is what its nodes count.**  Whatever the history of a store:

* its facts are those of its nodes, and its edges;
* its edges are those that leave its nodes, and as many as reach them;
* its tag assignments are the tags of its nodes, and the different ones are their union. -/
theorem counts_of_history [Measure μ] (history : List (Attempt μ)) :
    (built history).factCount =
      ((built history).allNodes.map Node.factCount).sum + (built history).statistics.edges ∧
    (built history).statistics.nodes = (built history).allNodes.length ∧
    (built history).statistics.edges =
      ((built history).allNodes.map fun n => ((built history).outgoing n.id).length).sum ∧
    (built history).statistics.edges =
      ((built history).allNodes.map fun n => ((built history).incoming n.id).length).sum ∧
    (built history).statistics.tags = ((built history).allNodes.map fun n => n.tags.size).sum ∧
    {tag | ∃ n ∈ (built history).allNodes, n.hasTag tag = true}.encard =
      (built history).statistics.distinctTags := by
  have h := linked_built history
  refine ⟨h.keyed.factCount_eq, (length_allNodes _).symm, ?_, ?_, h.keyed.length_tagRows,
    h.keyed.encard_tags⟩
  · have hsource := h.keyed.sum_length_selected Edge.source
      fun e he => (h.edges e.key (mem_allEdges he)).1
    exact hsource.symm
  · have htarget := h.keyed.sum_length_selected Edge.target
      fun e he => (h.edges e.key (mem_allEdges he)).2
    exact htarget.symm

end Store

end FactGraph
