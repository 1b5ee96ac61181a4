import FactGraph.Proofs.Dependencies

/-!
# The depth is the longest chain

A chain goes from component to component along dependencies and counts all their positions.  The
depth of a plan is the greatest count of any chain (`Plan.depth_isGreatest`).

The scheduler keeps one number for each block, settled when the block is taken.  Both halves of the
result are about these numbers: no chain that ends in a block counts more than its number
(`Plan.total_le_of_mem_chains`), because whatever feeds a block has been settled before; and some
chain counts exactly that (`Plan.exists_chainOf_of_mem_chains`).

Chains of components and, without circles, paths of positions are again two ways to name chains of
blocks.
-/

namespace FactGraph

/-- A chain of different nodes, each with an edge to the next. -/
structure ChainOf {α : Type} (nodes : α → Prop) (edge : α → α → Prop) (xs : List α) : Prop where
  nodes : ∀ a ∈ xs, nodes a
  nodup : xs.Nodup
  linked : xs.IsChain edge

theorem ChainOf.concat_iff {α : Type} {nodes : α → Prop} {edge : α → α → Prop} {xs : List α}
    {a b : α} : ChainOf nodes edge (xs ++ [a] ++ [b]) ↔
      ChainOf nodes edge (xs ++ [a]) ∧ nodes b ∧ b ∉ xs ++ [a] ∧ edge a b := by
  constructor
  · intro h
    obtain ⟨hlinked, -, hlast⟩ := List.isChain_append.mp h.linked
    obtain ⟨hnodup, -, hnew⟩ := List.nodup_append.mp h.nodup
    refine ⟨⟨fun c hc => h.nodes c (List.mem_append_left _ hc), hnodup, hlinked⟩,
      h.nodes b (List.mem_append_right _ List.mem_cons_self),
      fun hb => hnew b hb b List.mem_cons_self rfl, hlast a (by simp) b rfl⟩
  · rintro ⟨h, hb, hnew, hedge⟩
    refine ⟨fun c hc => ?_, ?_, ?_⟩
    · rcases List.mem_append.mp hc with hc | hc
      · exact h.nodes c hc
      · exact List.mem_singleton.mp hc ▸ hb
    · refine List.nodup_append.mpr ⟨h.nodup, List.nodup_singleton b, fun c hc d hd hsame => ?_⟩
      rw [hsame, List.mem_singleton.mp hd] at hc
      exact hnew hc
    · refine List.isChain_append.mpr ⟨h.linked, List.isChain_singleton b, fun c hc d hd => ?_⟩
      rw [List.getLast?_concat, Option.mem_some_iff] at hc
      rw [List.head?_cons, Option.mem_some_iff] at hd
      exact hc ▸ hd ▸ hedge

namespace Plan

/-! ## 1. Chains of blocks -/

section Blocks

variable {edges : Relation} {ds : Declarations}

/-- The number of positions in a chain of blocks. -/
def total (bs : List Block) : Nat := (bs.map List.length).sum

theorem total_concat (bs : List Block) (c : Block) : total (bs ++ [c]) = total bs + c.length := by
  simp [total]

/-- **No chain counts more than the number of its last block.** -/
theorem total_le_of_mem_chains {bs : List Block} {c : Block} {len : Nat}
    (hchain : ChainOf (· ∈ blocks ds) (Feeds (relation ds)) (bs ++ [c]))
    (hlen : (c, len) ∈ chains (relation ds) (scheduled ds)) : total (bs ++ [c]) ≤ len := by
  rw [total_concat]
  induction bs using List.reverseRecOn generalizing c len with
  | nil =>
    have hle : c.length ≤ len := length_le_of_mem_chains hlen
    simpa [total] using hle
  | append_singleton bs b ih =>
    obtain ⟨hbefore, -, -, hne, hfeeds⟩ := ChainOf.concat_iff.mp hchain
    obtain ⟨len', hlen'⟩ := exists_chain (hbefore.nodes b (by simp))
    rw [total_concat]
    exact Nat.le_trans (Nat.add_le_add_right (ih hbefore hlen') _)
      (chain_add_le hlen' hlen hne hfeeds)

/-- A maximum over the entries that are let in is the start or one of them. -/
theorem foldl_max_attained {α : Type} (p : α → Bool) (f : α → Nat) (xs : List α) (start : Nat) :
    xs.foldl (fun most x => if p x then max most (f x) else most) start = start ∨
      ∃ x ∈ xs, p x = true ∧
        xs.foldl (fun most x => if p x then max most (f x) else most) start = f x := by
  induction xs using List.reverseRecOn with
  | nil => exact .inl rfl
  | append_singleton xs y ih =>
    rw [List.foldl_append, List.foldl_cons, List.foldl_nil]
    set most := xs.foldl (fun most x => if p x then max most (f x) else most) start
    have hold : most = start ∨ ∃ x ∈ xs ++ [y], p x = true ∧ most = f x := by
      rcases ih with h | ⟨x, hx, h⟩
      · exact .inl h
      · exact .inr ⟨x, List.mem_append_left _ hx, h⟩
    by_cases hp : p y = true
    · rw [if_pos hp]
      rcases Nat.le_total (f y) most with hle | hle
      · rw [Nat.max_eq_left hle]
        exact hold
      · rw [Nat.max_eq_right hle]
        exact .inr ⟨y, by simp, hp, rfl⟩
    · rw [if_neg hp]
      exact hold

/-- **Every number that is kept is the count of a chain.** -/
theorem exists_chainOf_of_mem_chains {xs : List Block} (hnodup : xs.Nodup) {c : Block} {len : Nat}
    (hlen : (c, len) ∈ chains edges xs) :
    ∃ bs, ChainOf (· ∈ xs) (Feeds edges) (bs ++ [c]) ∧ total (bs ++ [c]) = len := by
  induction xs using List.reverseRecOn generalizing c len with
  | nil => cases hlen
  | append_singleton xs d ih =>
    obtain ⟨hxs, -, hnew⟩ := List.nodup_append.mp hnodup
    have hd : d ∉ xs := fun hd => hnew d hd d List.mem_cons_self rfl
    -- a chain through the earlier blocks is one through all of them
    have hmore : ∀ {bs : List Block}, ChainOf (· ∈ xs) (Feeds edges) bs →
        ChainOf (· ∈ xs ++ [d]) (Feeds edges) bs :=
      fun h => ⟨fun b hb => List.mem_append_left _ (h.nodes b hb), h.nodup, h.linked⟩
    rw [chains_concat] at hlen
    rcases List.mem_cons.mp hlen with hlast | hearlier
    · obtain ⟨rfl, rfl⟩ := Prod.mk.inj hlast
      rcases foldl_max_attained (fun entry => feedsBlock edges entry.1 c) Prod.snd
        (chains edges xs) 0 with hnone | ⟨⟨b, before⟩, hb, hfeeds, hmax⟩
      · refine ⟨[], ⟨by simp, List.nodup_singleton c, List.isChain_singleton c⟩, ?_⟩
        rw [total_concat, continued, hnone]
        rfl
      · obtain ⟨bs, hchain, htotal⟩ := ih hxs hb
        refine ⟨bs ++ [b], ChainOf.concat_iff.mpr ⟨hmore hchain, by simp, ?_, ?_, hfeeds⟩, ?_⟩
        · exact fun hc => hd (hchain.nodes c hc)
        · rintro rfl
          exact hd (hchain.nodes b (by simp))
        · rw [total_concat, htotal, continued, hmax]
    · obtain ⟨bs, hchain, htotal⟩ := ih hxs hearlier
      exact ⟨bs, hmore hchain, htotal⟩

/-- The depth is the greatest count of a chain of blocks. -/
theorem isGreatest_total (ds : Declarations) :
    IsGreatest {n | ∃ bs, ChainOf (· ∈ blocks ds) (Feeds (relation ds)) bs ∧ total bs = n}
      (greedy ds).depth := by
  constructor
  · have hnodup : (scheduled ds).Nodup := scheduled_perm.nodup_iff.mpr nodup_blocks
    rcases foldl_max_attained (fun _ => true) Prod.snd (chains (relation ds) (scheduled ds)) 0 with
      hnone | ⟨⟨c, len⟩, hc, -, hmax⟩
    · exact ⟨[], ⟨by simp, List.nodup_nil, List.isChain_nil⟩, hnone.symm⟩
    · obtain ⟨bs, hchain, htotal⟩ := exists_chainOf_of_mem_chains hnodup hc
      refine ⟨bs ++ [c], ⟨fun b hb => ?_, hchain.nodup, hchain.linked⟩, htotal.trans hmax.symm⟩
      exact scheduled_perm.mem_iff.mp (hchain.nodes b hb)
  · rintro _ ⟨bs, hchain, rfl⟩
    cases bs using List.reverseRecOn with
    | nil => exact Nat.zero_le _
    | append_singleton bs c =>
      obtain ⟨len, hlen⟩ := exists_chain (hchain.nodes c (by simp))
      exact Nat.le_trans (total_le_of_mem_chains hchain hlen) (le_longest hlen)

end Blocks

/-! ## 2. Chains by name -/

section Names

variable {ds : Declarations} {α : Type} {nodes : α → Prop} {edge : α → α → Prop}
  {toBlock : α → Block}

theorem NamesBlocks.chainOf_iff (h : NamesBlocks ds nodes edge toBlock) {xs : List α} :
    ChainOf nodes edge xs ↔ ChainOf (· ∈ blocks ds) (Feeds (relation ds)) (xs.map toBlock) := by
  have hnodes : (∀ a ∈ xs, nodes a) ↔ ∀ b ∈ xs.map toBlock, b ∈ blocks ds := by
    simp only [List.forall_mem_map, h.toBlock_mem_blocks]
  have hlinked : (∀ a ∈ xs, nodes a) →
      (xs.IsChain edge ↔ (xs.map toBlock).IsChain (Feeds (relation ds))) := by
    intro hall
    rw [List.isChain_map]
    exact List.IsChain.iff_of_mem_imp fun a b ha hb => h.edge_iff a b (hall a ha) (hall b hb)
  have hnodup : (xs.map toBlock).Nodup ↔ xs.Nodup := List.nodup_map_iff h.injective
  constructor
  · intro hxs
    exact ⟨hnodes.mp hxs.nodes, hnodup.mpr hxs.nodup, (hlinked hxs.nodes).mp hxs.linked⟩
  · intro hxs
    have hall := hnodes.mpr hxs.nodes
    exact ⟨hall, hnodup.mp hxs.nodup, (hlinked hall).mpr hxs.linked⟩

/-- The depth is the greatest size of a chain of names. -/
theorem NamesBlocks.isGreatest_size (h : NamesBlocks ds nodes edge toBlock) (size : α → Nat)
    (hsize : ∀ a, (toBlock a).length = size a) :
    IsGreatest {n | ∃ xs, ChainOf nodes edge xs ∧ (xs.map size).sum = n}
      (greedy ds).depth := by
  have htotal : ∀ xs : List α, total (xs.map toBlock) = (xs.map size).sum := by
    intro xs
    rw [total, List.map_map]
    exact congrArg List.sum (List.map_congr_left fun a _ => hsize a)
  obtain ⟨⟨bs, hchain, hdepth⟩, hgreatest⟩ := isGreatest_total ds
  constructor
  · obtain ⟨xs, rfl⟩ := h.exists_map_eq hchain.nodes
    exact ⟨xs, h.chainOf_iff.mpr hchain, (htotal xs).symm.trans hdepth⟩
  · rintro _ ⟨xs, hxs, rfl⟩
    exact hgreatest ⟨xs.map toBlock, h.chainOf_iff.mp hxs, htotal xs⟩

end Names

/-- **The depth is the longest chain of dependencies**, whatever list of the components the plan is
made from.  It is the greatest number of positions that a chain of different components holds;
without circles, the greatest number of positions on a path; and zero if nothing is declared. -/
theorem depth_isGreatest (ds : Declarations) {parts : List (List Nat)}
    (hparts : ds.ListsComponents parts) :
    IsGreatest {n | ∃ sets, ChainOf ds.IsComponent ds.Condensed sets ∧
      (sets.map Finset.card).sum = n} (assemble ds parts).depth ∧
    (ds.Acyclic → IsGreatest {n | ∃ path, ChainOf (· < ds.length) ds.Depends path ∧
      path.length = n} (assemble ds parts).depth) ∧
    (ds = [] → (assemble ds parts).depth = 0) := by
  rw [hparts.assemble_eq]
  refine ⟨(namesBlocks_components ds).isGreatest_size Finset.card fun S => S.length_sort _,
    fun hacyclic => ?_, ?_⟩
  · have := (namesBlocks_positions hacyclic).isGreatest_size (fun _ => 1) fun _ => rfl
    simpa using this
  · rintro rfl
    rfl

/-- The longest chain of the tangled components, and the longest path of the pipeline. -/
theorem depth_isGreatest_tangled :
    (tangled.ListsComponents tangledParts ∧
      ChainOf tangled.IsComponent tangled.Condensed [{3}, {1, 2}, {0}] ∧
      (assemble tangled tangledParts).depth = 4 ∧
      1 + (2 + (1 + 0)) ≤ (assemble tangled tangledParts).depth) ∧
    (pipeline.ListsComponents pipelineParts ∧
      pipeline.Acyclic ∧ ChainOf (· < 4) pipeline.Depends [3, 1, 0] ∧
      (assemble pipeline pipelineParts).depth = 3 ∧
      3 ≤ (assemble pipeline pipelineParts).depth) := by
  constructor
  · have hbs : ∀ b ∈ [[3], [1, 2], [0]], b ∈ blocks tangled := by decide +kernel
    have hchain : ChainOf tangled.IsComponent tangled.Condensed [{3}, {1, 2}, {0}] := by
      refine (namesBlocks_components tangled).chainOf_iff.mpr ?_
      have hsort := Declarations.map_sort_toFinset hbs
      exact hsort ▸ ⟨hbs, by decide +kernel, by decide +kernel⟩
    exact ⟨listsComponents_tangledParts, hchain, by decide +kernel,
      (depth_isGreatest tangled listsComponents_tangledParts).1.2 ⟨_, hchain, rfl⟩⟩
  · have hacyclic : pipeline.Acyclic := by decide +kernel
    have hpath : ChainOf (· < 4) pipeline.Depends [3, 1, 0] :=
      ⟨by decide, by decide, by decide +kernel⟩
    exact ⟨listsComponents_pipelineParts, hacyclic, hpath, by decide +kernel,
      ((depth_isGreatest pipeline listsComponents_pipelineParts).2.1 hacyclic).2 ⟨_, hpath, rfl⟩⟩

end Plan

end FactGraph
