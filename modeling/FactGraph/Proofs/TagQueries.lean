import FactGraph.Proofs.StoreIntegrity

/-!
# Queries by tag

A query by tags never looks into a node.  It goes through the tag assignments of the whole store and
selects ids; where all tags are needed it groups the assignments by id and COUNTS the different tags
of each group.  A count says something about a set only if the set is known to lie inside another
one of that size (`KeySet.size_eq_iff_of_subset`), and here it does: the tags of a group are among
those asked for, each of which is asked for once.

* `Store.Keyed.contains_taggedIds`: at a stored node, the selection is what the node says of itself;
* `Store.Keyed.nodesByTags_eq`: so a query is a filter of all nodes.

Both need that an id belongs to one node only.  `tag_queries_of_history` draws the conclusions:
any-of is a union, all-of an intersection, and a kind filters.
-/

namespace FactGraph

open Std

/-! ## 1. Counting the members of a set -/

namespace KeySet

variable {κ : Type} [Ord κ] [TransOrd κ] [LawfulEqOrd κ]

/-- A part of a set is the whole if it has as many members. -/
theorem size_eq_iff_of_subset [DecidableEq κ] {s t : KeySet κ}
    (h : ∀ k, Table.contains s k = true → Table.contains t k = true) :
    s.size = t.size ↔ ∀ k, Table.contains t k = true → Table.contains s k = true := by
  constructor
  · intro hsize k hk
    exact Table.contains_of_size_le h hsize.ge hk
  · intro hall
    exact Nat.le_antisymm (Table.size_le_of_contains h) (Table.size_le_of_contains hall)

end KeySet

namespace Store

variable {μ : Type}

/-! ## 2. The assignments of a node -/

/-- What a query asks of a node. -/
def TagMatch.accepts (mode : TagMatch) (tags : List String) (n : Node μ) : Bool :=
  match mode with
  | .any => n.hasAnyTag tags
  | .all => n.hasAllTags tags

/-- The assignments with the id of a node are those of the node, since no other has its id. -/
theorem Keyed.mem_tagRows {s : Store μ} (h : s.Keyed) {n : Node μ} (hn : n ∈ s.allNodes)
    (tag : String) : (n.id, tag) ∈ s.tagRows ↔ n.hasTag tag = true := by
  rw [Node.hasTag, tags_of_node? (h.mem_allNodes.mp hn), contains_tagsOf, tagRows, List.mem_map]
  constructor
  · rintro ⟨⟨node, tag'⟩, ht, heq⟩
    obtain ⟨rfl, rfl⟩ := Prod.mk.inj heq
    exact KeySet.mem_members.mp ht
  · intro htag
    exact ⟨⟨n.id, tag⟩, KeySet.mem_members.mpr htag, rfl⟩

/-! ## 3. The selection of ids -/

variable {s : Store μ} {n : Node μ}

/-- An assignment that a query hits. -/
theorem Keyed.mem_hits (h : s.Keyed) (hn : n ∈ s.allNodes) (asked : Names) (tag : String) :
    (n.id, tag) ∈ (s.tagRows.filter fun row => asked.contains row.2) ↔
      asked.contains tag = true ∧ n.hasTag tag = true := by
  rw [List.mem_filter, h.mem_tagRows hn]
  exact and_comm

theorem Keyed.contains_taggedIds_any (h : s.Keyed) (hn : n ∈ s.allNodes) (asked : Names) :
    (s.taggedIds asked .any).contains n.id = true ↔
      ∃ tag, asked.contains tag = true ∧ n.hasTag tag = true := by
  unfold taggedIds
  dsimp only
  rw [KeySet.contains_ofMembers, List.mem_map]
  constructor
  · rintro ⟨⟨id, tag⟩, hrow, rfl⟩
    exact ⟨tag, (h.mem_hits hn asked tag).mp hrow⟩
  · rintro ⟨tag, htag⟩
    exact ⟨(n.id, tag), (h.mem_hits hn asked tag).mpr htag, rfl⟩

/-- The different tags in the group of a node. -/
theorem Keyed.contains_group (h : s.Keyed) (hn : n ∈ s.allNodes) (asked : Names) (tag : String) :
    Table.contains (KeySet.ofMembers (((s.tagRows.filter fun row => asked.contains row.2).filter
        (·.1 == n.id)).map (·.2)) : Names) tag = true ↔
      asked.contains tag = true ∧ n.hasTag tag = true := by
  rw [KeySet.contains_ofMembers, List.mem_map, ← h.mem_hits hn]
  constructor
  · rintro ⟨⟨id, tag'⟩, hrow, rfl⟩
    obtain ⟨hrow, hid⟩ := List.mem_filter.mp hrow
    rw [← beq_iff_eq.mp hid]
    exact hrow
  · intro hrow
    exact ⟨(n.id, tag), List.mem_filter.mpr ⟨hrow, by simp⟩, rfl⟩

/-- **The count of a group tells whether the node has all tags.** -/
theorem Keyed.contains_taggedIds_all (h : s.Keyed) (hn : n ∈ s.allNodes) {asked : Names}
    (hasked : ∃ tag, asked.contains tag = true) :
    (s.taggedIds asked .all).contains n.id = true ↔
      ∀ tag, asked.contains tag = true → n.hasTag tag = true := by
  have hcount := KeySet.size_eq_iff_of_subset fun tag htag =>
    ((h.contains_group hn asked tag).mp htag).1
  have hany := h.contains_taggedIds_any hn asked
  unfold taggedIds at hany ⊢
  dsimp only at hany ⊢
  rw [Table.contains_iff] at hany ⊢
  simp only [Table.get?_filter, Option.filter_eq_some_iff, beq_iff_eq]
  constructor
  · rintro ⟨u, -, hsize⟩ tag htag
    exact ((h.contains_group hn asked tag).mp (hcount.mp hsize tag htag)).2
  · intro hall
    -- some tag is asked for, so the node has an assignment that is hit and its group exists
    obtain ⟨tag, htag⟩ := hasked
    obtain ⟨u, hu⟩ := hany.mpr ⟨tag, htag, hall tag htag⟩
    refine ⟨u, hu, hcount.mpr fun tag' htag' => ?_⟩
    exact (h.contains_group hn asked tag').mpr ⟨htag', hall tag' htag'⟩

/-- **At a stored node the selection is what the node says of itself.** -/
theorem Keyed.contains_taggedIds (h : s.Keyed) (hn : n ∈ s.allNodes) {tags : List String}
    (htags : tags ≠ []) (mode : TagMatch) :
    (s.taggedIds (KeySet.ofMembers tags) mode).contains n.id = mode.accepts tags n := by
  rw [Bool.eq_iff_iff]
  cases mode with
  | any =>
    rw [h.contains_taggedIds_any hn]
    simp only [KeySet.contains_ofMembers, TagMatch.accepts, Node.hasAnyTag, List.any_eq_true]
  | all =>
    obtain ⟨tag, htag⟩ := List.exists_mem_of_ne_nil tags htags
    rw [h.contains_taggedIds_all hn ⟨tag, (KeySet.contains_ofMembers tags tag).mpr htag⟩]
    simp only [KeySet.contains_ofMembers, TagMatch.accepts, Node.hasAllTags, List.all_eq_true]

/-! ## 4. Queries -/

theorem isEmpty_ofMembers (tags : List String) :
    Table.isEmpty (KeySet.ofMembers tags : Names) = true ↔ tags = [] := by
  constructor
  · intro hempty
    refine List.eq_nil_iff_forall_not_mem.mpr fun tag htag => ?_
    obtain ⟨u, hu⟩ := Table.contains_iff.mp ((KeySet.contains_ofMembers tags tag).mpr htag)
    have hrow := Table.mem_rows.mpr hu
    rw [List.isEmpty_iff.mp hempty] at hrow
    cases hrow
  · rintro rfl
    rfl

/-- **A query by tags is a filter of all nodes**, the empty one included. -/
theorem Keyed.nodesByTags_eq (h : s.Keyed) (kind : Option String) (tags : List String)
    (mode : TagMatch) :
    s.nodesByTags kind tags mode =
      s.allNodes.filter fun n => mode.accepts tags n && kind.all (n.kind == ·) := by
  unfold nodesByTags
  dsimp only
  by_cases htags : tags = []
  · rw [if_pos ((isEmpty_ofMembers tags).mpr htags), htags]
    cases mode with
    | any => simp [TagMatch.accepts, Node.hasAnyTag]
    | all => cases kind <;> simp [TagMatch.accepts, Node.hasAllTags, nodesOfKind]
  · rw [if_neg (mt (isEmpty_ofMembers tags).mp htags)]
    refine List.filter_congr fun n hn => ?_
    rw [h.contains_taggedIds hn htags]

theorem Keyed.mem_nodesWithTag (h : s.Keyed) (tag : String) :
    n ∈ s.nodesWithTag tag ↔ n ∈ s.allNodes ∧ n.hasTag tag = true := by
  rw [nodesWithTag, h.nodesByTags_eq, List.mem_filter]
  simp [TagMatch.accepts, Node.hasAnyTag]

theorem Keyed.mem_nodesWithAnyTag (h : s.Keyed) (tags : List String) :
    n ∈ s.nodesWithAnyTag tags ↔ n ∈ s.allNodes ∧ ∃ tag ∈ tags, n.hasTag tag = true := by
  rw [nodesWithAnyTag, h.nodesByTags_eq, List.mem_filter]
  simp [TagMatch.accepts, Node.hasAnyTag]

theorem Keyed.mem_nodesWithAllTags (h : s.Keyed) (tags : List String) :
    n ∈ s.nodesWithAllTags tags ↔ n ∈ s.allNodes ∧ ∀ tag ∈ tags, n.hasTag tag = true := by
  rw [nodesWithAllTags, h.nodesByTags_eq, List.mem_filter]
  simp [TagMatch.accepts, Node.hasAllTags]

/-- A kind filters what the tags select. -/
theorem Keyed.nodesByTags_some (h : s.Keyed) (kind : String) (tags : List String)
    (mode : TagMatch) :
    s.nodesByTags (some kind) tags mode =
      (s.nodesByTags none tags mode).filter (·.kind == kind) := by
  rw [h.nodesByTags_eq, h.nodesByTags_eq, List.filter_filter]
  refine List.filter_congr fun n _ => ?_
  simp [Bool.and_comm]

/-! ## 5. Whatever the history -/

/-- **The queries by tag are a boolean algebra over all nodes.**  Whatever the history of a store
and however often a list repeats a tag:

* each answer lists stored nodes by id, none of them twice;
* any-of finds the nodes with one of the tags, and so is the union of the queries for each; it is
  empty for no tags;
* all-of finds the nodes with each of the tags, and so is the intersection of these queries; it is
  all nodes for no tags;
* with a kind, the answers are filtered by it. -/
theorem tag_queries_of_history [Measure μ] (history : List (Attempt μ)) (tags : List String) :
    ((built history).Listing ((built history).nodesWithAnyTag tags) ∧
      (built history).Listing ((built history).nodesWithAllTags tags)) ∧
    (∀ n, n ∈ (built history).nodesWithAnyTag tags ↔
      n ∈ (built history).allNodes ∧ ∃ tag ∈ tags, n.hasTag tag = true) ∧
    (∀ n, n ∈ (built history).nodesWithAllTags tags ↔
      n ∈ (built history).allNodes ∧ ∀ tag ∈ tags, n.hasTag tag = true) ∧
    (built history).nodesWithAnyTag [] = [] ∧
    (built history).nodesWithAllTags [] = (built history).allNodes ∧
    (∀ kind,
      (built history).nodesOfKindWithAnyTag kind tags =
        ((built history).nodesWithAnyTag tags).filter (·.kind == kind) ∧
      (built history).nodesOfKindWithAllTags kind tags =
        ((built history).nodesWithAllTags tags).filter (·.kind == kind)) ∧
    {n | n ∈ (built history).nodesWithAnyTag tags} =
      ⋃ tag ∈ tags, {n | n ∈ (built history).nodesWithTag tag} ∧
    {n | n ∈ (built history).nodesWithAllTags tags} =
      {n | n ∈ (built history).allNodes} ∩
        ⋂ tag ∈ tags, {n | n ∈ (built history).nodesWithTag tag} := by
  have h : (built history).Keyed := (linked_built history).keyed
  refine ⟨⟨h.listing_nodesByTags _ _ _, h.listing_nodesByTags _ _ _⟩,
    fun n => h.mem_nodesWithAnyTag tags, fun n => h.mem_nodesWithAllTags tags, rfl, rfl,
    fun kind => ⟨h.nodesByTags_some kind tags .any, h.nodesByTags_some kind tags .all⟩, ?_, ?_⟩
  · ext n
    simp only [Set.mem_ofPred_eq, Set.mem_iUnion, h.mem_nodesWithAnyTag, h.mem_nodesWithTag]
    constructor
    · rintro ⟨hn, tag, htag, hhas⟩
      exact ⟨tag, htag, hn, hhas⟩
    · rintro ⟨tag, htag, hn, hhas⟩
      exact ⟨hn, tag, htag, hhas⟩
  · ext n
    simp only [Set.mem_ofPred_eq, Set.mem_inter_iff, Set.mem_iInter, h.mem_nodesWithAllTags,
      h.mem_nodesWithTag]
    constructor
    · rintro ⟨hn, hall⟩
      exact ⟨hn, fun tag htag => ⟨hn, hall tag htag⟩⟩
    · rintro ⟨hn, hall⟩
      exact ⟨hn, fun tag htag => (hall tag htag).2⟩

end Store

end FactGraph
