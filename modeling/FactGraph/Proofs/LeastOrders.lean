import FactGraph.Proofs.Dependencies

/-!
# The order of work is the least one

Dependencies leave a choice, and a plan makes it in favour of what is registered first.  This module
says how far that goes: of ALL topological orders of the components, the plan's is lexicographically
least, with each component standing for its lowest position (`Plan.order_least`).

The queue of a plan follows a greedy schedule (`Progress.Faithful.exists_run`), and no exchange is
needed to see that greed is best.  What stands first in
any other order is ready too (`Plan.ready_of_first`), and the scheduler takes the lowest of what is
ready; so either it is ahead at once, or both begin alike and the rest is compared the same way
(`Plan.schedule_le`).

The same argument serves components and, without circles, single positions.  Both are names for the
blocks of a plan (`Plan.NamesBlocks`), and the two parts of the result are its two instances.
-/

namespace FactGraph

/-- A topological order of some nodes: each of them stands there once, and every edge between them
goes forward. -/
structure Topological {α : Type} [DecidableEq α] (nodes : α → Prop) (edge : α → α → Prop)
    (xs : List α) : Prop where
  nodup : xs.Nodup
  mem_iff : ∀ a, a ∈ xs ↔ nodes a
  forward : ∀ a b, nodes a → nodes b → edge a b → xs.idxOf a < xs.idxOf b

namespace Plan

/-! ## 1. Greed is best -/

section Greed

variable {edges : Relation} {κ : Type} [LinearOrder κ] {key : Block → κ}

/-- What stands first in an order that goes along the edges is ready. -/
theorem ready_of_first {remaining ys : List Block} {d : Block} (hperm : (d :: ys).Perm remaining)
    (hforward : (d :: ys).Pairwise fun c b => feedsBlock edges b c = false) :
    ready edges remaining d = true := by
  refine List.all_eq_true.mpr fun b hb => ?_
  rw [Bool.or_eq_true, beq_iff_eq, Bool.not_eq_true']
  rcases List.mem_cons.mp (hperm.mem_iff.mpr hb) with hfirst | hlater
  · exact .inl hfirst
  · exact .inr ((List.pairwise_cons.mp hforward).1 b hlater)

/-- In an ascending list the first that passes a test is the lowest that does. -/
theorem eq_or_lt_of_find? {remaining : List Block} {p : Block → Bool} {c d : Block}
    (hsorted : remaining.Pairwise fun b c => key b < key c) (hc : remaining.find? p = some c)
    (hd : d ∈ remaining) (hp : p d = true) : d = c ∨ key c < key d := by
  obtain ⟨-, before, after, rfl, hbefore⟩ := List.find?_eq_some_iff_append.mp hc
  rcases List.mem_append.mp hd with hd | hd
  · have := hbefore d hd
    rw [hp] at this
    cases this
  · rcases List.mem_cons.mp hd with rfl | hd
    · exact .inl rfl
    · exact .inr ((List.pairwise_cons.mp (List.pairwise_append.mp hsorted).2.1).1 d hd)

/-- **The greedy order is least.** -/
theorem schedule_le (fuel : Nat) {remaining ys : List Block}
    (hsorted : remaining.Pairwise fun b c => key b < key c) (hperm : ys.Perm remaining)
    (hforward : ys.Pairwise fun c b => feedsBlock edges b c = false) :
    (schedule edges fuel remaining).map key ≤ ys.map key := by
  have hnil : ∀ keys : List κ, [] ≤ keys := fun keys => not_lt.mp (List.not_lt_nil keys)
  induction fuel generalizing remaining ys with
  | zero => exact hnil _
  | succ fuel ih =>
    rw [schedule]
    cases hfind : remaining.find? (ready edges remaining) with
    | none => exact hnil _
    | some c =>
      have hc : c ∈ remaining := List.mem_of_find?_eq_some hfind
      cases ys with
      | nil => rw [List.nil_perm.mp hperm] at hc; cases hc
      | cons d ys =>
        have hd : d ∈ remaining := hperm.mem_iff.mp List.mem_cons_self
        rcases eq_or_lt_of_find? hsorted hfind hd (ready_of_first hperm hforward) with rfl | hlt
        · -- both begin alike: compare what remains
          have hrest : ys.Perm (remaining.erase d) :=
            List.perm_cons d |>.mp (hperm.trans (List.perm_cons_erase hd))
          exact List.cons_le_cons _ (ih (hsorted.sublist List.erase_sublist) hrest
            (List.pairwise_cons.mp hforward).2)
        · exact le_of_lt (List.Lex.rel hlt)

end Greed

/-! ## 2. Orders by name -/

section Names

variable {ds : Declarations} {α : Type} [DecidableEq α] {nodes : α → Prop} {edge : α → α → Prop}
  {toBlock : α → Block}

/-- A list of names is a topological order if and only if its blocks are all the blocks and none
feeds an earlier one. -/
theorem NamesBlocks.topological_iff (h : NamesBlocks ds nodes edge toBlock) {xs : List α} :
    Topological nodes edge xs ↔ (xs.map toBlock).Perm (blocks ds) ∧
      (xs.map toBlock).Pairwise fun c b => feedsBlock (relation ds) b c = false := by
  rw [List.pairwise_map]
  constructor
  · intro hxs
    have hnodes : ∀ a ∈ xs, nodes a := fun a => (hxs.mem_iff a).mp
    constructor
    · refine (List.perm_ext_iff_of_nodup (hxs.nodup.map h.injective) nodup_blocks).mpr fun b => ?_
      rw [List.mem_map, h.mem_blocks]
      simp only [hxs.mem_iff]
    · have hback := (idxOf_lt_iff_pairwise hxs.nodup fun a ha => h.not_edge_self (hnodes a ha)).mp
        fun a ha b hb => hxs.forward a b (hnodes a ha) (hnodes b hb)
      refine (hxs.nodup.and hback).imp_of_mem fun {a b} ha hb hab => ?_
      rw [← Bool.not_eq_true]
      intro hfeeds
      exact hab.2 ((h.edge_iff b a (hnodes b hb) (hnodes a ha)).mpr
        ⟨h.injective.ne hab.1.symm, hfeeds⟩)
  · rintro ⟨hperm, hback⟩
    have hnodup : xs.Nodup := (hperm.nodup_iff.mpr nodup_blocks).of_map
    have hmem : ∀ a, a ∈ xs ↔ nodes a := by
      intro a
      rw [← List.mem_map_of_injective h.injective, hperm.mem_iff, h.toBlock_mem_blocks]
    refine ⟨hnodup, hmem, fun a b ha hb hedge => ?_⟩
    refine (idxOf_lt_iff_pairwise hnodup fun c hc => h.not_edge_self ((hmem c).mp hc)).mpr
      (hback.imp_of_mem fun {c d} hc hd hfeeds hdc => ?_)
      a ((hmem a).mpr ha) b ((hmem b).mpr hb) hedge
    have := ((h.edge_iff d c ((hmem d).mp hd) ((hmem c).mp hc)).mp hdc).2
    rw [hfeeds] at this
    cases this

/-- **The scheduled blocks, by name, are the least topological order** in every labelling of the
names under which the blocks are listed in ascending order. -/
theorem NamesBlocks.exists_least (h : NamesBlocks ds nodes edge toBlock) {κ : Type} [LinearOrder κ]
    (label : α → κ) (key : Block → κ) (hlabel : ∀ a, key (toBlock a) = label a)
    (hkey : (blocks ds).Pairwise fun b c => key b < key c) :
    ∃ xs, xs.map toBlock = scheduled ds ∧ Topological nodes edge xs ∧
      ∀ ys, Topological nodes edge ys → xs.map label ≤ ys.map label := by
  obtain ⟨xs, hxs⟩ := h.exists_map_eq fun b hb => scheduled_perm.mem_iff.mp hb
  have hlabels : ∀ ys : List α, (ys.map toBlock).map key = ys.map label := by
    intro ys
    rw [List.map_map]
    exact List.map_congr_left fun a _ => hlabel a
  refine ⟨xs, hxs, h.topological_iff.mpr ?_, fun ys hys => ?_⟩
  · rw [hxs]
    exact ⟨scheduled_perm, scheduled_pairwise⟩
  · obtain ⟨hperm, hforward⟩ := h.topological_iff.mp hys
    rw [← hlabels, ← hlabels, hxs]
    exact schedule_le (blocks ds).length hkey hperm hforward

end Names

/-! ## 3. The least order -/

/-- **Of all orders of work the plan has the least**, whatever list of the components it is made
from.  It is made of the components in the topological order of the condensation that is
lexicographically least by lowest positions; and if there is no circle, it is itself the least
topological order of the positions. -/
theorem order_least (ds : Declarations) {parts : List (List Nat)}
    (hparts : ds.ListsComponents parts) :
    (∃ sets : List (Finset Nat),
      (assemble ds parts).order = sets.flatMap (fun S => S.sort) ∧
      Topological ds.IsComponent ds.Condensed sets ∧
      ∀ others, Topological ds.IsComponent ds.Condensed others →
        sets.map Finset.min ≤ others.map Finset.min) ∧
    (ds.Acyclic →
      IsLeast {xs | Topological (· < ds.length) ds.Depends xs} (assemble ds parts).order) := by
  rw [hparts.assemble_eq]
  constructor
  · obtain ⟨sets, hsets, htop, hleast⟩ := (namesBlocks_components ds).exists_least
      Finset.min (fun b => b.toFinset.min) (fun S => congrArg Finset.min (S.sort_toFinset _))
      (blocks_min_ascending ds)
    exact ⟨sets, by rw [greedy, ← hsets]; rfl, htop, hleast⟩
  · intro hacyclic
    obtain ⟨xs, hxs, htop, hleast⟩ := (namesBlocks_positions hacyclic).exists_least
      id (fun b => b.headD 0) (fun _ => rfl) (blocks_headD_ascending ds)
    have horder : (greedy ds).order = xs := by
      rw [greedy, ← hxs]
      exact List.flatMap_singleton' xs
    rw [horder]
    refine ⟨htop, fun ys hys => ?_⟩
    have := hleast ys hys
    rw [List.map_id, List.map_id] at this
    exact this

end Plan

/-- Another order of the tangled components, and another order of the pipeline, are not below. -/
theorem Plan.order_least_tangled :
    (tangled.ListsComponents tangledParts ∧
      Topological tangled.IsComponent tangled.Condensed [{3}, {4}, {1, 2}, {0}] ∧
      ∃ sets : List (Finset Nat), [3, 1, 2, 0, 4] = sets.flatMap (fun S => S.sort) ∧
        sets.map Finset.min ≤ [3, 4, 1, 0]) ∧
    (pipeline.ListsComponents pipelineParts ∧
      pipeline.Acyclic ∧ Topological (· < 4) pipeline.Depends [3, 1, 0, 2] ∧
      (assemble pipeline pipelineParts).order = [2, 3, 1, 0] ∧
      (assemble pipeline pipelineParts).order ≤ [3, 1, 0, 2]) := by
  constructor
  · obtain ⟨⟨sets, horder, -, hleast⟩, -⟩ := order_least tangled listsComponents_tangledParts
    have hblocks : ∀ b ∈ [[3], [4], [1, 2], [0]], b ∈ blocks tangled := by decide +kernel
    have hother : Topological tangled.IsComponent tangled.Condensed [{3}, {4}, {1, 2}, {0}] := by
      refine (namesBlocks_components tangled).topological_iff.mpr ?_
      have hsort := Declarations.map_sort_toFinset hblocks
      exact hsort ▸ (by decide +kernel)
    refine ⟨listsComponents_tangledParts, hother, sets, ?_, hleast _ hother⟩
    exact (by decide +kernel : _ = (assemble tangled tangledParts).order).trans horder
  · have hacyclic : pipeline.Acyclic := by decide +kernel
    have hother : Topological (· < 4) pipeline.Depends [3, 1, 0, 2] :=
      (namesBlocks_positions hacyclic).topological_iff.mpr (by decide +kernel)
    exact ⟨listsComponents_pipelineParts, hacyclic, hother, by decide +kernel,
      ((order_least pipeline listsComponents_pipelineParts).2 hacyclic).2 hother⟩

end FactGraph
