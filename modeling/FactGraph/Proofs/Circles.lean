import FactGraph.Proofs.Dependencies

/-!
# Circles are reported exactly

A circle is a component that cannot be put into an order: it has two members, or one that depends on
itself.  `Plan.cycles_exact` says that a plan reports the circles and nothing else, one report for
each, and that a report gives the names of all members and the tags that flow inside.

A dependency through a need closes a circle like any other and adds no tag; a tag that one member
produces and one consumes is reported even if no shortest circle uses it.  Both follow from the
statement about tags, which is an equivalence.
-/

namespace FactGraph

namespace Declarations

/-- A circle: a component of two or more positions, or a single position that depends on itself. -/
def IsCircle (ds : Declarations) (S : Finset Nat) : Prop :=
  ds.IsComponent S ∧ (1 < S.card ∨ ∃ i, S = {i} ∧ ds.Depends i i)

/-- What a report says about some positions: all their names in registration order, and in ascending
order exactly the tags that one of them produces and one of them consumes. -/
structure ReportedBy (ds : Declarations) (S : Finset Nat) (report : Cycle) : Prop where
  names : report.names.map some = S.sort.map fun i => ds[i]?.map (·.name)
  ascending : report.tags.Pairwise (· < ·)
  mem_tags : ∀ tag, tag ∈ report.tags ↔
    (∃ i ∈ S, ds.producesAt i tag = true) ∧ ∃ j ∈ S, ds.consumesAt j tag = true

end Declarations

namespace Plan

variable {ds : Declarations}

/-! ## 1. Names and tags -/

theorem map_some_namesAt {positions : List Nat} (h : ∀ i ∈ positions, i < ds.length) :
    (ds.namesAt positions).map some = positions.map fun i => ds[i]?.map (·.name) := by
  induction positions with
  | nil => rfl
  | cons i rest ih =>
    have hi := h i List.mem_cons_self
    rw [Declarations.namesAt, List.filterMap_cons, List.map_cons, List.getElem?_eq_getElem hi]
    exact congrArg _ (ih fun j hj => h j (List.mem_cons_of_mem i hj))

theorem innerTags_ascending (c : Block) : (innerTags ds c).Pairwise (· < ·) := by
  rw [innerTags, KeySet.members, Table.keys, List.pairwise_map]
  exact (Table.ascending _).imp fun h => compare_lt_iff_lt.mp h

/-! ## 2. Circles -/

theorem isCycle_iff {b : Block} (hb : b ∈ blocks ds) :
    isCycle (relation ds) b = true ↔ ds.IsCircle b.toFinset := by
  have hcard : b.toFinset.card = b.length := by
    rw [← Finset.length_sort (· ≤ ·), Declarations.sort_toFinset_block hb]
  rw [isCycle, Bool.or_eq_true, decide_eq_true_eq, List.any_eq_true, Declarations.IsCircle, hcard,
    and_iff_right (Declarations.isComponent_toFinset hb)]
  constructor
  · rintro (hlong | ⟨i, hi, hloop⟩)
    · exact .inl hlong
    · rcases Nat.lt_or_ge 1 b.length with hlong | hshort
      · exact .inl hlong
      · -- a block of at most one member is that member
        have honly : ∀ j ∈ b.toFinset, j = i := fun j hj =>
          Finset.card_le_one.mp (hcard ▸ hshort) j hj i (List.mem_toFinset.mpr hi)
        exact .inr ⟨i, Finset.eq_singleton_iff_unique_mem.mpr ⟨List.mem_toFinset.mpr hi, honly⟩,
          Declarations.depends_iff_edge.mpr hloop⟩
  · rintro (hlong | ⟨i, hsingle, hloop⟩)
    · exact .inl hlong
    · have hi : i ∈ b.toFinset := hsingle ▸ Finset.mem_singleton_self i
      exact .inr ⟨i, List.mem_toFinset.mp hi, Declarations.depends_iff_edge.mp hloop⟩

/-- There is no circle to report if and only if no way along dependencies comes round. -/
theorem hasCycles_eq_false_iff : (greedy ds).hasCycles = false ↔ ds.Acyclic := by
  constructor
  · intro h i hround
    rw [Declarations.depends_eq_edge] at hround
    obtain ⟨j, hstep, hback⟩ := Relation.TransGen.head'_iff.mp hround
    obtain ⟨hi, hj⟩ := hstep.lt
    rcases Relation.reflTransGen_iff_eq_or_transGen.mp hback with rfl | hback
    · exact not_edge_self h _ hstep
    · have := eq_of_together h hi hj (.inr ⟨.single hstep, hback⟩)
      exact not_edge_self h i (this ▸ hstep)
  · intro h
    rw [hasCycles, Bool.not_eq_false', List.isEmpty_iff]
    refine List.map_eq_nil_iff.mpr (List.filter_eq_nil_iff.mpr fun b hb hcycle => ?_)
    obtain ⟨i, -, rfl⟩ := h.mem_blocks.mp hb
    rcases ((isCycle_iff hb).mp hcycle).2 with hlong | ⟨j, -, hloop⟩
    · exact absurd hlong (by simp)
    · exact h j (.single hloop)

/-- A plan has no circle if and only if every dependency goes forward in its order. -/
theorem hasCycles_eq_false_iff_forward :
    (greedy ds).hasCycles = false ↔ ∀ i j, ds.Depends i j →
      (greedy ds).order.idxOf i < (greedy ds).order.idxOf j := by
  rw [hasCycles_eq_false_iff]
  constructor
  · intro h i j hdepends
    exact idxOf_lt_of_depends hdepends fun hsame => h i (.head' hdepends hsame.2)
  · intro h i hround
    have hlt : ∀ j, Relation.TransGen ds.Depends i j →
        (greedy ds).order.idxOf i < (greedy ds).order.idxOf j := by
      intro j hway
      induction hway with
      | single hstep => exact h _ _ hstep
      | tail _ hstep ih => exact Nat.lt_trans ih (h _ _ hstep)
    exact Nat.lt_irrefl _ (hlt i hround)

end Plan

/-- **The reports are exact**, whatever list of the components the plan is made from.  They come
from the circles one by one, in the order of their lowest positions, and each says what its circle
is; and there is none if and only if every dependency goes forward in the order of work. -/
theorem Plan.cycles_exact (ds : Declarations) {parts : List (List Nat)}
    (hparts : ds.ListsComponents parts) :
    (∃ circles : List (Finset Nat),
      circles.Pairwise (fun S T => S.min < T.min) ∧ (∀ S, S ∈ circles ↔ ds.IsCircle S) ∧
      List.Forall₂ ds.ReportedBy circles (assemble ds parts).cycles) ∧
    ((assemble ds parts).hasCycles = false ↔ ∀ i j, ds.Depends i j →
      (assemble ds parts).order.idxOf i < (assemble ds parts).order.idxOf j) := by
  rw [hparts.assemble_eq]
  refine ⟨⟨((blocks ds).filter (isCycle (relation ds))).map List.toFinset, ?_, fun S => ?_, ?_⟩,
    hasCycles_eq_false_iff_forward⟩
  · exact List.pairwise_map.mpr ((blocks_min_ascending ds).filter _)
  · rw [List.mem_map]
    constructor
    · rintro ⟨b, hb, rfl⟩
      obtain ⟨hb, hcycle⟩ := List.mem_filter.mp hb
      exact (isCycle_iff hb).mp hcycle
    · intro hS
      have hb := Declarations.isComponent_iff.mp hS.1
      refine ⟨S.sort, List.mem_filter.mpr ⟨hb, (isCycle_iff hb).mpr ?_⟩, S.sort_toFinset _⟩
      rw [S.sort_toFinset]
      exact hS
  · rw [List.forall₂_map_left_iff]
    refine List.forall₂_map_right_iff.mpr (List.forall₂_same.mpr fun b hb => ?_)
    have hb := List.mem_of_mem_filter hb
    refine ⟨?_, innerTags_ascending b, fun tag => ?_⟩
    · rw [Declarations.sort_toFinset_block hb]
      exact map_some_namesAt fun i hi =>
        (Declarations.isComponent_toFinset hb).2.1.1 i (List.mem_toFinset.mpr hi)
    · simp only [List.mem_toFinset]
      exact mem_innerTags

/-- The two circles of the tangled declarations are reported in this order, and the pipeline, which
has none, runs forward. -/
theorem Plan.cycles_exact_tangled :
    (tangled.ListsComponents tangledParts ∧ tangled.IsCircle {1, 2} ∧ tangled.IsCircle {3} ∧
      ∃ circles : List (Finset Nat), {1, 2} ∈ circles ∧ {3} ∈ circles ∧
        List.Forall₂ tangled.ReportedBy circles
          [⟨["check", "link"], ["checked", "linked"]⟩, ⟨["parse"], ["parsed"]⟩]) ∧
    (pipeline.ListsComponents pipelineParts ∧
      (assemble pipeline pipelineParts).hasCycles = false ∧ pipeline.Depends 3 1 ∧
      (assemble pipeline pipelineParts).order.idxOf 3 <
        (assemble pipeline pipelineParts).order.idxOf 1) := by
  constructor
  · obtain ⟨⟨circles, -, hcircles, hreports⟩, -⟩ :=
      cycles_exact tangled listsComponents_tangledParts
    have hpair : tangled.IsCircle {1, 2} :=
      (isCycle_iff (by decide +kernel : [1, 2] ∈ blocks tangled)).mp (by decide +kernel)
    have hloop : tangled.IsCircle {3} :=
      (isCycle_iff (by decide +kernel : [3] ∈ blocks tangled)).mp (by decide +kernel)
    refine ⟨listsComponents_tangledParts, hpair, hloop, circles, (hcircles _).mpr hpair,
      (hcircles _).mpr hloop, ?_⟩
    have hcycles : (assemble tangled tangledParts).cycles =
        [⟨["check", "link"], ["checked", "linked"]⟩, ⟨["parse"], ["parsed"]⟩] := by decide +kernel
    exact hcycles ▸ hreports
  · have hnone : (assemble pipeline pipelineParts).hasCycles = false := by decide +kernel
    have hdepends : pipeline.Depends 3 1 := by decide +kernel
    exact ⟨listsComponents_pipelineParts, hnone, hdepends,
      (cycles_exact pipeline listsComponents_pipelineParts).2.mp hnone 3 1 hdepends⟩

end FactGraph
