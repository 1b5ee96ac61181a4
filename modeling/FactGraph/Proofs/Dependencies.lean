import FactGraph.Proofs.Condensations

/-!
# Dependencies and the order of work

A plan computes with links and with a list of components that it is given.  This module says what
both are about without either: `Declarations.Depends` reads the dependencies off the declarations,
and a component is a MAXIMAL set of positions that all reach each other
(`Declarations.IsComponent`).

* `Declarations.depends_iff_edge`: the links join exactly the positions that depend on each other.
* `Declarations.isComponent_iff`: the blocks of a plan are exactly the components, each written in
  ascending order.
* `Declarations.ListsComponents`: all that is asked of the list of components.  Neither the order of
  the list nor the order inside a component matters (`Declarations.ListsComponents.assemble_eq`).
* `Plan.NamesBlocks`: components, and without circles single positions, are names for the blocks.
  What is proved of blocks carries over to both.
* `Plan.order_valid`: whatever is declared, the order of work is a schedule.  It names every
  position once, it goes along every dependency that leaves a component, and it lists each component
  in one piece and in registration order.
-/

namespace FactGraph

theorem Plan.sort_injective : Function.Injective fun S : Finset Nat => S.sort :=
  Function.LeftInverse.injective (g := List.toFinset) fun S => S.sort_toFinset _

namespace Declarations

/-! ## 1. Dependencies -/

section Dependencies

/-- `j` depends on `i`: it consumes a tag that `i` produces, or it needs a name and `i` is the first
to be declared under it. -/
def Depends (ds : Declarations) (i j : Nat) : Prop :=
  (∃ tag, ds.producesAt i tag = true ∧ ds.consumesAt j tag = true) ∨
    ∃ name, ds.position? name = some i ∧ ds.needsAt j name = true

variable {ds : Declarations} {i j : Nat}

/-- **The links of a plan are exactly the dependencies.** -/
theorem depends_iff_edge : ds.Depends i j ↔ Plan.Edge ds i j := by
  rw [Plan.edge_iff, Depends]
  constructor
  · rintro (⟨tag, htag⟩ | hneed)
    · exact ⟨.tag tag, tag_mem_links.mpr htag⟩
    · exact ⟨.need, need_mem_links.mpr hneed⟩
  · rintro ⟨reason, hlink⟩
    cases reason with
    | tag tag => exact .inl ⟨tag, tag_mem_links.mp hlink⟩
    | need => exact .inr (need_mem_links.mp hlink)

theorem Depends.lt (h : ds.Depends i j) : i < ds.length ∧ j < ds.length :=
  (depends_iff_edge.mp h).lt

theorem depends_eq_edge (ds : Declarations) : ds.Depends = Plan.Edge ds :=
  funext fun _ => funext fun _ => propext depends_iff_edge

/-- Each reaches the other along dependencies. -/
def Connected (ds : Declarations) (i j : Nat) : Prop :=
  Relation.ReflTransGen ds.Depends i j ∧ Relation.ReflTransGen ds.Depends j i

theorem connected_iff_together : ds.Connected i j ↔ Plan.Together ds i j := by
  rw [Connected, Plan.Together, depends_eq_edge, Relation.reflTransGen_iff_eq_or_transGen,
    Relation.reflTransGen_iff_eq_or_transGen]
  constructor
  · rintro ⟨rfl | h, h' | h'⟩
    · exact .inl rfl
    · exact .inl rfl
    · exact .inl h'
    · exact .inr ⟨h, h'⟩
  · rintro (rfl | ⟨h, h'⟩)
    · exact ⟨.inl rfl, .inl rfl⟩
    · exact ⟨.inr h, .inr h'⟩

instance : DecidableRel ds.Depends := fun i j =>
  decidable_of_iff ((Plan.relation ds).holds i j = true) depends_iff_edge.symm

instance : DecidableRel ds.Connected := fun i j =>
  decidable_of_iff (i = j ∨ ((Plan.relation ds).closure.holds i j = true ∧
      (Plan.relation ds).closure.holds j i = true)) <| by
    rw [connected_iff_together, Plan.Together, Plan.holds_closure, Plan.holds_closure]

end Dependencies

/-! ## 2. Components -/

section Components

/-- The positions of a set are registered, and each reaches each. -/
def MutuallyReachable (ds : Declarations) (S : Finset Nat) : Prop :=
  (∀ i ∈ S, i < ds.length) ∧ ∀ i ∈ S, ∀ j ∈ S, Relation.ReflTransGen ds.Depends i j

/-- A strongly connected component: positions that reach each other, as many as possible. -/
def IsComponent (ds : Declarations) (S : Finset Nat) : Prop :=
  S.Nonempty ∧ Maximal ds.MutuallyReachable S

variable {ds : Declarations} {i j : Nat} {S : Finset Nat} {b : Plan.Block}

theorem mem_toFinset_block :
    j ∈ (Plan.block ds i).toFinset ↔ j < ds.length ∧ ds.Connected i j := by
  rw [List.mem_toFinset, Plan.mem_block, connected_iff_together]

theorem mutuallyReachable_block : ds.MutuallyReachable (Plan.block ds i).toFinset := by
  constructor
  · intro j hj
    exact (mem_toFinset_block.mp hj).1
  · intro j hj k hk
    exact (mem_toFinset_block.mp hj).2.2.trans (mem_toFinset_block.mp hk).2.1

/-- Positions that reach each other all belong to the block of any of them. -/
theorem MutuallyReachable.subset_block (h : ds.MutuallyReachable S) (hi : i ∈ S) :
    S ⊆ (Plan.block ds i).toFinset := by
  intro j hj
  exact mem_toFinset_block.mpr ⟨h.1 j hj, h.2 i hi j hj, h.2 j hj i hi⟩

theorem isComponent_block (hi : i < ds.length) : ds.IsComponent (Plan.block ds i).toFinset := by
  have hself : i ∈ (Plan.block ds i).toFinset := mem_toFinset_block.mpr ⟨hi, .refl, .refl⟩
  exact ⟨⟨i, hself⟩, mutuallyReachable_block, fun T hT hle => hT.subset_block (hle hself)⟩

theorem IsComponent.eq_block (h : ds.IsComponent S) (hi : i ∈ S) :
    S = (Plan.block ds i).toFinset :=
  h.2.eq_of_le mutuallyReachable_block (h.2.1.subset_block hi)

/-- A block is the ascending list of its members. -/
theorem sort_toFinset_block (hb : b ∈ Plan.blocks ds) : b.toFinset.sort = b := by
  obtain ⟨i, -, rfl, -⟩ := Plan.mem_blocks.mp hb
  have hsorted : (Plan.block ds i).Pairwise (· < ·) := Plan.block_sorted i
  exact (List.toFinset_sort (· ≤ ·) (hsorted.imp Nat.ne_of_lt)).mpr (hsorted.imp Nat.le_of_lt)

/-- **The blocks are the components.** -/
theorem isComponent_iff : ds.IsComponent S ↔ S.sort ∈ Plan.blocks ds := by
  constructor
  · intro h
    obtain ⟨i, hi⟩ := h.1
    have hb := Plan.block_mem_blocks (h.2.1.1 i hi)
    rw [h.eq_block hi, sort_toFinset_block hb]
    exact hb
  · intro h
    obtain ⟨i, hi, hS, -⟩ := Plan.mem_blocks.mp h
    rw [← Finset.sort_toFinset S (· ≤ ·), hS]
    exact isComponent_block hi

theorem map_sort_toFinset {bs : List Plan.Block} (hbs : ∀ b ∈ bs, b ∈ Plan.blocks ds) :
    (bs.map List.toFinset).map (fun S => S.sort) = bs := by
  rw [List.map_map]
  exact (List.map_congr_left fun b hb => sort_toFinset_block (hbs b hb)).trans (List.map_id bs)

theorem isComponent_toFinset (hb : b ∈ Plan.blocks ds) : ds.IsComponent b.toFinset := by
  rw [isComponent_iff, sort_toFinset_block hb]
  exact hb

/-- A list of the components: each component is the members of one entry, nothing else is listed, and
no position is listed twice.  The components may stand in any order, and so may their members. -/
structure ListsComponents (ds : Declarations) (parts : List (List Nat)) : Prop where
  isComponent_iff : ∀ S, ds.IsComponent S ↔ ∃ part ∈ parts, part.toFinset = S
  nodup : parts.flatten.Nodup

theorem sortBy_eq_sort {part : List Nat} (h : part.Nodup) :
    Plan.sortBy id part = part.toFinset.sort := by
  refine Plan.sortBy_eq ?_ (part.toFinset.sortedLT_sort.pairwise)
  refine (List.perm_ext_iff_of_nodup h (Finset.sort_nodup _ _)).mpr fun i => ?_
  rw [Finset.mem_sort, List.mem_toFinset]

theorem ListsComponents.nodup_of_mem {parts : List (List Nat)} (h : ds.ListsComponents parts)
    {part : List Nat} (hpart : part ∈ parts) : part.Nodup :=
  (List.nodup_flatten.mp h.nodup).1 part hpart

theorem mem_map_sortBy_iff {parts : List (List Nat)} (hnodup : ∀ part ∈ parts, part.Nodup) :
    S.sort ∈ parts.map (Plan.sortBy id) ↔ ∃ part ∈ parts, part.toFinset = S := by
  rw [List.mem_map]
  refine exists_congr fun part => and_congr_right fun hpart => ?_
  rw [sortBy_eq_sort (hnodup part hpart), Plan.sort_injective.eq_iff]

/-- Sorted, a list of the components is the list of blocks. -/
theorem listsComponents_iff {parts : List (List Nat)} :
    ds.ListsComponents parts ↔ (parts.map (Plan.sortBy id)).Perm (Plan.blocks ds) := by
  constructor
  · intro h
    have hmem := fun S => @mem_map_sortBy_iff S parts fun _ => h.nodup_of_mem
    refine (List.perm_ext_iff_of_nodup ?_ Plan.nodup_blocks).mpr fun b => ⟨fun hb => ?_, fun hb => ?_⟩
    · -- two entries have a member each and none in common
      refine List.pairwise_map.mpr ((List.nodup_flatten.mp h.nodup).2.imp_of_mem ?_)
      intro part part' hpart _ hapart hsame
      obtain ⟨i, hi⟩ := ((h.isComponent_iff _).mpr ⟨part, hpart, rfl⟩).1
      have hi := List.mem_toFinset.mp hi
      have hi' := (Plan.sortBy_perm id part).mem_iff.mpr hi
      rw [hsame, (Plan.sortBy_perm id part').mem_iff] at hi'
      exact hapart hi hi'
    · obtain ⟨part, hpart, rfl⟩ := List.mem_map.mp hb
      rw [sortBy_eq_sort (h.nodup_of_mem hpart), ← isComponent_iff, h.isComponent_iff]
      exact ⟨part, hpart, rfl⟩
    · rw [← sort_toFinset_block hb, hmem, ← h.isComponent_iff]
      exact isComponent_toFinset hb
  · intro h
    have hflat : parts.flatten.Perm (List.range ds.length) := by
      have hsorted : (parts.map (Plan.sortBy id)).flatten.Perm parts.flatten := by
        rw [← List.flatMap_def, ← List.flatMap_id]
        exact List.Perm.flatMap_left _ fun part _ => Plan.sortBy_perm id part
      exact hsorted.symm.trans (h.flatten.trans Plan.flatten_blocks_perm)
    have hnodup : parts.flatten.Nodup := hflat.nodup_iff.mpr List.nodup_range
    refine ⟨fun S => ?_, hnodup⟩
    rw [isComponent_iff, ← h.mem_iff, mem_map_sortBy_iff (List.nodup_flatten.mp hnodup).1]

/-- **Every list of the components gives the same plan.** -/
theorem ListsComponents.assemble_eq {parts : List (List Nat)} (h : ds.ListsComponents parts) :
    Plan.assemble ds parts = Plan.greedy ds :=
  Plan.assemble_eq_greedy (listsComponents_iff.mp h)

/-- An edge of the condensation: some member of one component feeds a member of another. -/
def Condensed (ds : Declarations) (S T : Finset Nat) : Prop :=
  S ≠ T ∧ ∃ i ∈ S, ∃ j ∈ T, ds.Depends i j

/-- No way along dependencies comes round. -/
def Acyclic (ds : Declarations) : Prop := ∀ i, ¬ Relation.TransGen ds.Depends i i

theorem acyclic_iff :
    ds.Acyclic ↔ ∀ i < ds.length, (Plan.relation ds).closure.holds i i = false := by
  simp only [Acyclic, depends_eq_edge, ← Plan.holds_closure, Bool.not_eq_true]
  refine ⟨fun h i _ => h i, fun h i => ?_⟩
  by_contra hround
  obtain ⟨_, hstep, -⟩ := Relation.TransGen.head'_iff.mp
    (Plan.holds_closure.mp (Bool.of_not_eq_false hround))
  exact hround (h i hstep.lt.1)

instance : Decidable ds.Acyclic := decidable_of_iff _ acyclic_iff.symm

/-- Without circles every position is a component of its own. -/
theorem Acyclic.block_eq (h : ds.Acyclic) (hi : i < ds.length) : Plan.block ds i = [i] := by
  have hset : (Plan.block ds i).toFinset = {i} := by
    ext j
    rw [List.mem_toFinset, Plan.mem_block, Finset.mem_singleton]
    constructor
    · rintro ⟨-, hsame | ⟨hto, hback⟩⟩
      · exact hsame.symm
      · rw [← depends_eq_edge] at hto hback
        exact absurd (hto.trans hback) (h i)
    · rintro rfl
      exact ⟨hi, .inl rfl⟩
  rw [← sort_toFinset_block (Plan.block_mem_blocks hi), hset, Finset.sort_singleton]

theorem Acyclic.mem_blocks (h : ds.Acyclic) : b ∈ Plan.blocks ds ↔ ∃ i < ds.length, [i] = b := by
  constructor
  · intro hb
    obtain ⟨i, hi, rfl, -⟩ := Plan.mem_blocks.mp hb
    exact ⟨i, hi, (h.block_eq hi).symm⟩
  · rintro ⟨i, hi, rfl⟩
    rw [← h.block_eq hi]
    exact Plan.block_mem_blocks hi

end Components

end Declarations

/-! ## 3. Names for blocks -/

namespace Plan

section Names

variable {ds : Declarations} {α : Type}

/-- One block feeds another. -/
def Feeds (edges : Relation) (b c : Block) : Prop := b ≠ c ∧ feedsBlock edges b c = true

instance {edges : Relation} : DecidableRel (Feeds edges) :=
  fun _ _ => inferInstanceAs (Decidable (_ ∧ _))

/-- Nodes with edges that name the blocks of a plan: `toBlock` takes them to the blocks one to one,
and an edge leads from one node to another exactly if the first block feeds the second. -/
structure NamesBlocks (ds : Declarations) (nodes : α → Prop) (edge : α → α → Prop)
    (toBlock : α → Block) : Prop where
  injective : Function.Injective toBlock
  mem_blocks : ∀ b, b ∈ blocks ds ↔ ∃ a, nodes a ∧ toBlock a = b
  edge_iff : ∀ a b, nodes a → nodes b →
    (edge a b ↔ Feeds (relation ds) (toBlock a) (toBlock b))

variable {nodes : α → Prop} {edge : α → α → Prop} {toBlock : α → Block}

theorem NamesBlocks.toBlock_mem_blocks (h : NamesBlocks ds nodes edge toBlock) {a : α} :
    toBlock a ∈ blocks ds ↔ nodes a := by
  rw [h.mem_blocks]
  constructor
  · rintro ⟨a', ha', hsame⟩
    exact h.injective hsame ▸ ha'
  · intro ha
    exact ⟨a, ha, rfl⟩

theorem NamesBlocks.not_edge_self (h : NamesBlocks ds nodes edge toBlock) {a : α} (ha : nodes a) :
    ¬ edge a a :=
  fun hloop => ((h.edge_iff a a ha ha).mp hloop).1 rfl

theorem NamesBlocks.exists_map_eq (h : NamesBlocks ds nodes edge toBlock) {bs : List Block}
    (hbs : ∀ b ∈ bs, b ∈ blocks ds) : ∃ xs : List α, xs.map toBlock = bs := by
  have hrange : bs ∈ Set.range (List.map toBlock) := by
    rw [Set.range_list_map]
    intro b hb
    obtain ⟨a, -, ha⟩ := (h.mem_blocks b).mp (hbs b hb)
    exact ⟨a, ha⟩
  exact hrange

/-- Components name the blocks. -/
theorem namesBlocks_components (ds : Declarations) :
    NamesBlocks ds ds.IsComponent ds.Condensed fun S => S.sort where
  injective := sort_injective
  mem_blocks b := by
    constructor
    · intro hb
      exact ⟨b.toFinset, Declarations.isComponent_toFinset hb, Declarations.sort_toFinset_block hb⟩
    · rintro ⟨S, hS, rfl⟩
      exact Declarations.isComponent_iff.mp hS
  edge_iff S T _ _ := by
    rw [Declarations.Condensed, Feeds, sort_injective.ne_iff, feedsBlock_iff]
    simp only [Finset.mem_sort, Declarations.depends_iff_edge]

/-- Without circles positions name the blocks. -/
theorem namesBlocks_positions (h : ds.Acyclic) :
    NamesBlocks ds (· < ds.length) ds.Depends fun i => [i] where
  injective := List.singleton_injective
  mem_blocks _ := h.mem_blocks
  edge_iff i j _ _ := by
    rw [Feeds, List.singleton_injective.ne_iff, feedsBlock_iff]
    simp only [List.mem_singleton, exists_eq_left, ← Declarations.depends_iff_edge]
    refine ⟨fun hedge => ⟨?_, hedge⟩, fun hedge => hedge.2⟩
    rintro rfl
    exact h i (.single hedge)

end Names

theorem min_toFinset_block {ds : Declarations} {b : Block} (hb : b ∈ blocks ds) {i : Nat}
    (hi : i ∈ b.head?) : b.toFinset.min = i := by
  obtain ⟨j, -, rfl, -⟩ := mem_blocks.mp hb
  have hsorted : (block ds j).Pairwise (· < ·) := block_sorted j
  obtain ⟨rest, hrest⟩ := List.head?_eq_some_iff.mp hi
  rw [hrest] at hsorted ⊢
  refine le_antisymm (Finset.min_le (List.mem_toFinset.mpr List.mem_cons_self))
    (Finset.le_min fun k hk => WithTop.coe_le_coe.mpr ?_)
  rcases List.mem_cons.mp (List.mem_toFinset.mp hk) with rfl | hk
  · exact Nat.le_refl _
  · exact Nat.le_of_lt ((List.pairwise_cons.mp hsorted).1 k hk)

/-- The blocks are listed in the order of their least members. -/
theorem blocks_min_ascending (ds : Declarations) :
    (blocks ds).Pairwise fun b c => b.toFinset.min < c.toFinset.min := by
  refine (blocks_ascending ds).imp_of_mem fun {b c} hb hc h => ?_
  obtain ⟨i, hi, j, hj, hlt⟩ := h
  rw [min_toFinset_block hb hi, min_toFinset_block hc hj]
  exact WithTop.coe_lt_coe.mpr hlt

end Plan

/-! ## 4. The order is a schedule -/

/-- In a list without repetitions, all related members stand in order if and only if none is
related to an earlier one. -/
theorem idxOf_lt_iff_pairwise {α : Type} [DecidableEq α] {R : α → α → Prop} {xs : List α}
    (hnodup : xs.Nodup) (hirr : ∀ a ∈ xs, ¬ R a a) :
    (∀ a ∈ xs, ∀ b ∈ xs, R a b → xs.idxOf a < xs.idxOf b) ↔ xs.Pairwise fun a b => ¬ R b a := by
  rw [List.pairwise_iff_getElem]
  constructor
  · intro h m n hm hn hmn hR
    have := h _ (List.getElem_mem hn) _ (List.getElem_mem hm) hR
    rw [hnodup.idxOf_getElem, hnodup.idxOf_getElem] at this
    omega
  · intro h a ha b hb hR
    have ha' := List.idxOf_lt_length_iff.mpr ha
    have hb' := List.idxOf_lt_length_iff.mpr hb
    rcases Nat.lt_trichotomy (xs.idxOf a) (xs.idxOf b) with hlt | heq | hgt
    · exact hlt
    · rw [List.idxOf_inj ha] at heq
      exact absurd (heq ▸ hR) (hirr a ha)
    · have := h _ _ hb' ha' hgt
      rw [List.getElem_idxOf, List.getElem_idxOf] at this
      exact absurd hR this

namespace Plan

variable {ds : Declarations}

/-- A dependency that goes back in the order stays inside a component. -/
theorem order_pairwise (ds : Declarations) :
    (greedy ds).order.Pairwise fun i j => ds.Depends j i → ds.Connected j i := by
  rw [greedy, List.pairwise_flatten]
  constructor
  · intro b hb
    have hb' := scheduled_perm.mem_iff.mp hb
    refine List.pairwise_of_forall_mem_list fun i hi j hj _ => ?_
    exact Declarations.connected_iff_together.mpr (together_of_mem hb' hj hi)
  · refine scheduled_pairwise.imp fun {c b} hfeeds i hi j hj hdepends => ?_
    have : feedsBlock (relation ds) b c = true :=
      feedsBlock_iff.mpr ⟨j, hj, i, hi, Declarations.depends_iff_edge.mp hdepends⟩
    rw [hfeeds] at this
    cases this

/-- A dependency between different components goes forward. -/
theorem idxOf_lt_of_depends {i j : Nat} (hdepends : ds.Depends i j) (hapart : ¬ ds.Connected i j) :
    (greedy ds).order.idxOf i < (greedy ds).order.idxOf j := by
  have hperm : (greedy ds).order.Perm _ := flatten_scheduled_perm ds
  have hmem : ∀ i < ds.length, i ∈ (greedy ds).order :=
    fun i hi => hperm.mem_iff.mpr (List.mem_range.mpr hi)
  have hforward := (idxOf_lt_iff_pairwise (R := fun i j => ds.Depends i j ∧ ¬ ds.Connected i j)
    (hperm.nodup_iff.mpr List.nodup_range) (fun i _ h => h.2 ⟨.refl, .refl⟩)).mpr
    ((order_pairwise ds).imp fun h hback => hback.2 (h hback.1))
  exact hforward i (hmem i hdepends.lt.1) j (hmem j hdepends.lt.2) ⟨hdepends, hapart⟩

end Plan

/-- **The order of work is a schedule, whatever is declared**, and whatever list of the components
it is made from.  It names every position once.  A dependency between different components goes
forward.  A component stands in one piece, in ascending order. -/
theorem Plan.order_valid (ds : Declarations) {parts : List (List Nat)}
    (hparts : ds.ListsComponents parts) :
    (assemble ds parts).order.Perm (List.range ds.length) ∧
    (∀ i j, ds.Depends i j → ¬ ds.Connected i j →
      (assemble ds parts).order.idxOf i < (assemble ds parts).order.idxOf j) ∧
    ∀ S, ds.IsComponent S → S.sort <:+: (assemble ds parts).order := by
  rw [hparts.assemble_eq]
  refine ⟨flatten_scheduled_perm ds, fun _ _ => idxOf_lt_of_depends, fun S hS => ?_⟩
  exact List.infix_of_mem_flatten
    (scheduled_perm.mem_iff.mpr (Declarations.isComponent_iff.mp hS))

/-- A check and a link that wait for each other, a parser that waits for itself, a need that nobody
answers and a name declared twice. -/
def tangled : Declarations :=
  [⟨"publish", { consumes := KeySet.ofMembers ["checked"], needs := KeySet.ofMembers ["sign"] }⟩,
   ⟨"check", { consumes := KeySet.ofMembers ["linked"], produces := KeySet.ofMembers ["checked"] }⟩,
   ⟨"link", { consumes := KeySet.ofMembers ["checked", "parsed"],
              produces := KeySet.ofMembers ["linked"] }⟩,
   ⟨"parse", { consumes := KeySet.ofMembers ["parsed"], produces := KeySet.ofMembers ["parsed"] }⟩,
   ⟨"check", { needs := KeySet.ofMembers ["parse"] }⟩]

/-- Collecting, sniffing and measuring, registered the wrong way round, and a stamp that nothing
depends on. -/
def pipeline : Declarations :=
  [⟨"measure", { consumes := KeySet.ofMembers ["text"] }⟩,
   ⟨"sniff", { consumes := KeySet.ofMembers ["file"], produces := KeySet.ofMembers ["text"] }⟩,
   ⟨"stamp", {}⟩,
   ⟨"collect", { produces := KeySet.ofMembers ["file"] }⟩]

/-- The components of the tangled declarations, last first and one of them back to front. -/
def tangledParts : List (List Nat) := [[0], [2, 1], [4], [3]]

theorem listsComponents_tangledParts : tangled.ListsComponents tangledParts :=
  Declarations.listsComponents_iff.mpr (by decide +kernel)

/-- The components of the pipeline, each after what depends on it. -/
def pipelineParts : List (List Nat) := [[0], [1], [3], [2]]

theorem listsComponents_pipelineParts : pipeline.ListsComponents pipelineParts :=
  Declarations.listsComponents_iff.mpr (by decide +kernel)

/-- The tangled declarations in order: a dependency between components, and a component of two. -/
theorem Plan.order_valid_tangled :
    tangled.ListsComponents tangledParts ∧
    (assemble tangled tangledParts).order = [3, 1, 2, 0, 4] ∧
    (tangled.Depends 3 2 ∧ ¬ tangled.Connected 3 2 ∧
      (assemble tangled tangledParts).order.idxOf 3 <
        (assemble tangled tangledParts).order.idxOf 2) ∧
    (tangled.IsComponent {1, 2} ∧ [1, 2] <:+: (assemble tangled tangledParts).order) := by
  obtain ⟨-, hforward, hpiece⟩ := order_valid tangled listsComponents_tangledParts
  have hdepends : tangled.Depends 3 2 := by decide +kernel
  have hapart : ¬ tangled.Connected 3 2 := by decide +kernel
  have hblock : [1, 2] ∈ blocks tangled := by decide +kernel
  have hcomponent : tangled.IsComponent {1, 2} := Declarations.isComponent_toFinset hblock
  refine ⟨listsComponents_tangledParts, by decide +kernel,
    ⟨hdepends, hapart, hforward 3 2 hdepends hapart⟩, hcomponent, ?_⟩
  have hsort := Declarations.sort_toFinset_block hblock
  exact hsort ▸ hpiece _ hcomponent

end FactGraph
