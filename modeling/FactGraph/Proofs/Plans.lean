import FactGraph.Plan
import FactGraph.Proofs.Relations
import FactGraph.Proofs.Tables

/-!
# Plans are schedules

What a plan promises whatever is declared, circles included.

A plan is made by counting.  This module is about the plan one would write down without counters,
`Plan.greedy`: the blocks come from the closure of the dependencies, each round takes the first
block that no other remaining block feeds, and the chains are measured over the finished schedule.
`Condensations` shows that the counters arrive at the same plan.

* **Links.**  A link stands for a tag that is produced and consumed, or for a need and the first to
  be declared under its name (`Declarations.tag_mem_links`, `Declarations.need_mem_links`).
* **Blocks.**  The components are the classes of "each reaches the other", each listed in ascending
  order and named by its least member.  Every position is in exactly one of them
  (`Plan.flatten_blocks_perm`).
* **Order.**  Among the blocks that remain there is always one that no other feeds
  (`Plan.exists_ready`): otherwise one could walk backwards for ever, and a finite walk backwards
  that comes round joins two blocks into one.  So the scheduler never gets stuck, its schedule is a
  permutation of the blocks (`Plan.schedule_perm`), and no later block feeds an earlier one
  (`Plan.schedule_pairwise`).
* **Depth.**  Along the schedule the chains grow by the size of each block
  (`Plan.chains_pairwise`).  Without circles every block is a single position, and the chain lengths
  rank the positions below the depth (`Plan.exists_rank`).
-/

namespace FactGraph

/-! ## 1. Links -/

namespace Declarations

variable {ds : Declarations} {i j : Nat}

/-- Whether the declaration at a position needs a name. -/
def needsAt (ds : Declarations) (i : Nat) (name : String) : Bool :=
  ds[i]?.any (·.contract.needs.contains name)

theorem lt_of_any {p : Declaration → Bool} (h : ds[i]?.any p = true) : i < ds.length := by
  obtain ⟨d, hd, -⟩ := Option.any_eq_true _ _ |>.mp h
  exact (List.getElem?_eq_some_iff.mp hd).1

theorem lt_of_position? {name : String} (h : ds.position? name = some i) : i < ds.length :=
  (List.findIdx?_eq_some_iff_findIdx_eq.mp h).1

theorem mem_suppliers {tag : String} : i ∈ ds.suppliers tag ↔ ds.producesAt i tag = true := by
  rw [suppliers, List.mem_filter, List.mem_range, and_iff_right_iff_imp]
  exact lt_of_any

theorem mem_links {link : Link} : link ∈ ds.links ↔
    ∃ d, ds[link.target]? = some d ∧
      ((∃ tag ∈ d.contract.consumes.members, ∃ i ∈ ds.suppliers tag,
          ⟨i, link.target, .tag tag⟩ = link) ∨
        ∃ name ∈ d.contract.needs.members, ∃ i, ds.position? name = some i ∧
          ⟨i, link.target, .need⟩ = link) := by
  simp only [links, List.mem_flatMap, List.mem_append, List.mem_map, List.mem_filterMap,
    Option.map_eq_some_iff]
  constructor
  · rintro ⟨⟨d, j⟩, hd, h⟩
    have hj : j = link.target := by
      rcases h with ⟨_, _, _, _, rfl⟩ | ⟨_, _, _, _, rfl⟩ <;> rfl
    subst hj
    exact ⟨d, List.mem_zipIdx_iff_getElem?.mp hd, h⟩
  · rintro ⟨d, hd, h⟩
    exact ⟨(d, link.target), List.mem_zipIdx_iff_getElem?.mpr hd, h⟩

/-- **A tag links who produces it to who consumes it.** -/
theorem tag_mem_links {tag : String} : ⟨i, j, .tag tag⟩ ∈ ds.links ↔
    ds.producesAt i tag = true ∧ ds.consumesAt j tag = true := by
  simp only [mem_links, mem_suppliers, consumesAt, Option.any_eq_true, Link.mk.injEq, Reason.tag.injEq,
    reduceCtorEq, and_false, exists_false, or_false, true_and]
  constructor
  · rintro ⟨d, hd, tag, htag, i, hi, rfl, rfl⟩
    exact ⟨hi, d, hd, KeySet.mem_members.mp htag⟩
  · rintro ⟨hi, d, hd, htag⟩
    exact ⟨d, hd, tag, KeySet.mem_members.mpr htag, i, hi, rfl, rfl⟩

/-- **A need links the first to be declared under its name to who needs it.** -/
theorem need_mem_links : ⟨i, j, .need⟩ ∈ ds.links ↔
    ∃ name, ds.position? name = some i ∧ ds.needsAt j name = true := by
  simp only [mem_links, needsAt, Option.any_eq_true, Link.mk.injEq, reduceCtorEq, and_false,
    exists_false, false_or, and_true]
  constructor
  · rintro ⟨d, hd, name, hname, i, hi, rfl⟩
    exact ⟨name, hi, d, hd, KeySet.mem_members.mp hname⟩
  · rintro ⟨name, hi, d, hd, hname⟩
    exact ⟨d, hd, name, KeySet.mem_members.mpr hname, i, hi, rfl⟩

/-- Links join registered positions. -/
theorem lt_of_mem_links {link : Link} (h : link ∈ ds.links) :
    link.source < ds.length ∧ link.target < ds.length := by
  obtain ⟨i, j, reason⟩ := link
  cases reason with
  | tag tag =>
    obtain ⟨hi, hj⟩ := tag_mem_links.mp h
    exact ⟨lt_of_any hi, lt_of_any hj⟩
  | need =>
    obtain ⟨_, hi, hj⟩ := need_mem_links.mp h
    exact ⟨lt_of_position? hi, lt_of_any hj⟩

end Declarations

namespace Plan

/-! ## 2. Blocks -/

section Blocks

variable {ds : Declarations}

/-- The dependencies between positions, as a proposition. -/
def Edge (ds : Declarations) (i j : Nat) : Prop := (relation ds).holds i j = true

/-- Two positions are in one block: they are the same, or each reaches the other. -/
def Together (ds : Declarations) (i j : Nat) : Prop :=
  i = j ∨ (Relation.TransGen (Edge ds) i j ∧ Relation.TransGen (Edge ds) j i)

theorem edge_iff {i j : Nat} : Edge ds i j ↔ ∃ reason, ⟨i, j, reason⟩ ∈ ds.links := by
  rw [Edge, relation, Relation.holds_tabulate_iff, List.any_eq_true]
  simp only [Bool.and_eq_true, beq_iff_eq]
  constructor
  · rintro ⟨-, -, ⟨i, j, reason⟩, hlink, rfl, rfl⟩
    exact ⟨reason, hlink⟩
  · rintro ⟨reason, hlink⟩
    obtain ⟨hi, hj⟩ := Declarations.lt_of_mem_links hlink
    exact ⟨hi, hj, _, hlink, rfl, rfl⟩

theorem Edge.lt {i j : Nat} (h : Edge ds i j) : i < ds.length ∧ j < ds.length := by
  obtain ⟨_, hlink⟩ := edge_iff.mp h
  exact Declarations.lt_of_mem_links hlink

theorem holds_closure {i j : Nat} :
    (relation ds).closure.holds i j = true ↔ Relation.TransGen (Edge ds) i j := by
  unfold Edge
  rw [relation, Relation.holds_closure_tabulate]

theorem size_reach : (relation ds).closure.size = ds.length := Relation.size_closure _

theorem Together.symm {i j : Nat} (h : Together ds i j) : Together ds j i := by
  rcases h with rfl | ⟨h₁, h₂⟩
  · exact .inl rfl
  · exact .inr ⟨h₂, h₁⟩

theorem Together.trans {i j k : Nat} (h : Together ds i j) (h' : Together ds j k) :
    Together ds i k := by
  rcases h with rfl | ⟨h₁, h₂⟩
  · exact h'
  · rcases h' with rfl | ⟨h₃, h₄⟩
    · exact .inr ⟨h₁, h₂⟩
    · exact .inr ⟨h₁.trans h₃, h₄.trans h₂⟩

/-- The block of a position. -/
def block (ds : Declarations) (i : Nat) : Block := blockOf (relation ds).closure i

/-- All blocks of some declarations. -/
def blocks (ds : Declarations) : List Block := components (relation ds).closure

theorem mem_block {i j : Nat} : j ∈ block ds i ↔ j < ds.length ∧ Together ds i j := by
  rw [block, blockOf, List.mem_filter, size_reach, List.mem_range, Bool.or_eq_true, beq_iff_eq,
    Bool.and_eq_true, holds_closure, holds_closure]
  rfl

/-- Positions of one block have the same block. -/
theorem block_eq {i j : Nat} (h : Together ds i j) : block ds i = block ds j := by
  refine List.filter_congr fun k _ => ?_
  rw [Bool.eq_iff_iff, Bool.or_eq_true, Bool.or_eq_true, beq_iff_eq, beq_iff_eq, Bool.and_eq_true,
    Bool.and_eq_true, holds_closure, holds_closure, holds_closure, holds_closure]
  exact ⟨fun hk => h.symm.trans hk, fun hk => h.trans hk⟩

theorem block_sorted (i : Nat) : (block ds i).Pairwise (· < ·) :=
  List.pairwise_lt_range.filter _

theorem mem_blocks {b : Block} :
    b ∈ blocks ds ↔ ∃ i < ds.length, b = block ds i ∧ b.head? = some i := by
  rw [blocks, components, List.mem_filterMap, size_reach]
  constructor
  · rintro ⟨i, hi, h⟩
    simp only [Option.ite_none_right_eq_some, Option.some.injEq] at h
    obtain ⟨hhead, rfl⟩ := h
    exact ⟨i, List.mem_range.mp hi, rfl, hhead⟩
  · rintro ⟨i, hi, rfl, hhead⟩
    refine ⟨i, List.mem_range.mpr hi, ?_⟩
    show (if (block ds i).head? = some i then some (block ds i) else none) = _
    rw [if_pos hhead]

/-- The block of a position is one of the blocks. -/
theorem block_mem_blocks {i : Nat} (hi : i < ds.length) : block ds i ∈ blocks ds := by
  have hmem : i ∈ block ds i := mem_block.mpr ⟨hi, .inl rfl⟩
  cases hb : block ds i with
  | nil => rw [hb] at hmem; cases hmem
  | cons j rest =>
    -- the least member names the block
    have hj : j ∈ block ds i := by rw [hb]; exact List.mem_cons_self
    obtain ⟨hlt, htog⟩ := mem_block.mp hj
    refine mem_blocks.mpr ⟨j, hlt, ?_, rfl⟩
    rw [← block_eq htog, hb]

/-- A block is the block of each of its members. -/
theorem eq_block_of_mem {b : Block} (hb : b ∈ blocks ds) {i : Nat} (hi : i ∈ b) :
    b = block ds i := by
  obtain ⟨j, -, rfl, -⟩ := mem_blocks.mp hb
  exact block_eq (mem_block.mp hi).2

theorem nodup_blocks : (blocks ds).Nodup := by
  rw [blocks, components]
  refine List.Nodup.filterMap ?_ List.nodup_range
  intro i j b hi hj
  simp only [Option.mem_def, Option.ite_none_right_eq_some, Option.some.injEq] at hi hj
  obtain ⟨hi, rfl⟩ := hi
  obtain ⟨hj, hb⟩ := hj
  rw [hb] at hj
  exact Option.some.inj (hi.symm.trans hj)

/-- The blocks are listed by their lowest positions. -/
theorem blocks_ascending (ds : Declarations) :
    (blocks ds).Pairwise fun b c => ∃ i ∈ b.head?, ∃ j ∈ c.head?, i < j := by
  rw [blocks, components, List.pairwise_filterMap]
  refine List.pairwise_lt_range.imp fun {i j} hlt b hb c hc => ?_
  simp only [Option.ite_none_right_eq_some, Option.some.injEq] at hb hc
  obtain ⟨hi, rfl⟩ := hb
  obtain ⟨hj, rfl⟩ := hc
  exact ⟨i, hi, j, hj, hlt⟩

theorem blocks_headD_ascending (ds : Declarations) :
    (blocks ds).Pairwise fun b c => b.headD 0 < c.headD 0 := by
  refine (blocks_ascending ds).imp fun {b c} h => ?_
  obtain ⟨i, hi, j, hj, hlt⟩ := h
  rw [List.headD_eq_head?_getD, List.headD_eq_head?_getD, hi, hj]
  exact hlt

/-- **Every position is in exactly one block.** -/
theorem flatten_blocks_perm : (blocks ds).flatten.Perm (List.range ds.length) := by
  refine (List.perm_ext_iff_of_nodup ?_ List.nodup_range).mpr ?_
  · rw [List.nodup_flatten]
    constructor
    · intro b hb
      obtain ⟨i, -, rfl, -⟩ := mem_blocks.mp hb
      exact (block_sorted i).imp fun h => Nat.ne_of_lt h
    · refine (List.nodup_iff_pairwise_ne.mp nodup_blocks).imp_of_mem ?_
      intro b c hb hc hne i hib hic
      exact hne ((eq_block_of_mem hb hib).trans (eq_block_of_mem hc hic).symm)
  · intro i
    rw [List.mem_flatten, List.mem_range]
    constructor
    · rintro ⟨b, hb, hi⟩
      obtain ⟨j, -, rfl, -⟩ := mem_blocks.mp hb
      exact (mem_block.mp hi).1
    · intro hi
      exact ⟨block ds i, block_mem_blocks hi, mem_block.mpr ⟨hi, .inl rfl⟩⟩

end Blocks

/-! ## 3. Order -/

section Order

variable {ds : Declarations}

/-- Whether a member of one block feeds a member of another. -/
def feedsBlock (edges : Relation) (b c : Block) : Bool :=
  b.any fun i => c.any fun j => edges.holds i j

/-- Whether no other remaining block feeds this one. -/
def ready (edges : Relation) (remaining : List Block) (c : Block) : Bool :=
  remaining.all fun b => b == c || !feedsBlock edges b c

/-- Take the first remaining block that is ready, again and again. -/
def schedule (edges : Relation) : Nat → List Block → List Block
  | 0, _ => []
  | fuel + 1, remaining =>
    match remaining.find? (ready edges remaining) with
    | none => []
    | some c => c :: schedule edges fuel (remaining.erase c)

theorem feedsBlock_iff {b c : Block} :
    feedsBlock (relation ds) b c = true ↔ ∃ i ∈ b, ∃ j ∈ c, Edge ds i j := by
  rw [feedsBlock, List.any_eq_true]
  constructor
  · rintro ⟨i, hi, h⟩
    obtain ⟨j, hj, he⟩ := List.any_eq_true.mp h
    exact ⟨i, hi, j, hj, he⟩
  · rintro ⟨i, hi, j, hj, he⟩
    exact ⟨i, hi, List.any_eq_true.mpr ⟨j, hj, he⟩⟩

/-- A transitive relation without loops leaves some member of a list without a predecessor. -/
theorem exists_source {α : Type} {R : α → α → Prop} (hirr : ∀ a, ¬ R a a) {xs : List α}
    (htrans : ∀ a ∈ xs, ∀ b ∈ xs, ∀ c ∈ xs, R a b → R b c → R a c) (hne : xs ≠ []) :
    ∃ a ∈ xs, ∀ b ∈ xs, ¬ R b a := by
  induction xs with
  | nil => exact absurd rfl hne
  | cons x rest ih =>
    rcases rest with _ | ⟨y, rest⟩
    · refine ⟨x, List.mem_cons_self, fun b hb => ?_⟩
      rw [List.mem_singleton.mp hb]
      exact hirr x
    · obtain ⟨a, ha, hmin⟩ := ih (fun a ha b hb c hc => htrans a (List.mem_cons_of_mem _ ha) b
        (List.mem_cons_of_mem _ hb) c (List.mem_cons_of_mem _ hc)) (List.cons_ne_nil _ _)
      have ha' := List.mem_cons_of_mem x ha
      by_cases hx : R x a
      · -- whatever precedes `x` would precede `a` too
        refine ⟨x, List.mem_cons_self, fun b hb hbx => ?_⟩
        rcases List.mem_cons.mp hb with rfl | hb'
        · exact hirr b hbx
        · exact hmin b hb' (htrans b hb x List.mem_cons_self a ha' hbx hx)
      · refine ⟨a, ha', fun b hb => ?_⟩
        rcases List.mem_cons.mp hb with rfl | hb'
        · exact hx
        · exact hmin b hb'

/-- One block comes before another: they are different, and a way leads from one to the other. -/
def Upstream (ds : Declarations) (b c : Block) : Prop :=
  b ≠ c ∧ ∃ i ∈ b, ∃ j ∈ c, Relation.TransGen (Edge ds) i j

theorem transGen_together {i j k : Nat} (h : Relation.TransGen (Edge ds) i j)
    (h' : Together ds j k) : Relation.TransGen (Edge ds) i k := by
  rcases h' with rfl | ⟨h₁, -⟩
  · exact h
  · exact h.trans h₁

/-- Members of one block are together. -/
theorem together_of_mem {b : Block} (hb : b ∈ blocks ds) {i j : Nat} (hi : i ∈ b) (hj : j ∈ b) :
    Together ds i j := by
  rw [eq_block_of_mem hb hi] at hj
  exact (mem_block.mp hj).2

theorem Upstream.trans {b c d : Block} (hb : b ∈ blocks ds) (hc : c ∈ blocks ds)
    (h : Upstream ds b c) (h' : Upstream ds c d) : Upstream ds b d := by
  obtain ⟨hne, i, hi, j, hj, hij⟩ := h
  obtain ⟨-, j', hj', k, hk, hjk⟩ := h'
  have hij' : Relation.TransGen (Edge ds) i j' := transGen_together hij (together_of_mem hc hj hj')
  refine ⟨?_, i, hi, k, hk, hij'.trans hjk⟩
  -- a way round would put `b` and `c` into one block
  rintro rfl
  have hji : Relation.TransGen (Edge ds) j' i := transGen_together hjk (together_of_mem hb hk hi)
  refine hne ?_
  rw [eq_block_of_mem hb hi, eq_block_of_mem hc hj']
  exact block_eq (.inr ⟨hij', hji⟩)

/-- **The scheduler never gets stuck**: among any blocks one is ready. -/
theorem exists_ready {remaining : List Block} (hsub : ∀ b ∈ remaining, b ∈ blocks ds)
    (hne : remaining ≠ []) : ∃ c ∈ remaining, ready (relation ds) remaining c = true := by
  obtain ⟨c, hc, hmin⟩ := exists_source (R := Upstream ds) (fun b h => h.1 rfl)
    (fun a ha b hb c _ h h' => h.trans (hsub a ha) (hsub b hb) h') hne
  refine ⟨c, hc, List.all_eq_true.mpr fun b hb => ?_⟩
  rw [Bool.or_eq_true, beq_iff_eq, Bool.not_eq_true']
  by_cases hbc : b = c
  · exact .inl hbc
  · refine .inr (Bool.eq_false_iff.mpr fun hfeeds => hmin b hb ⟨hbc, ?_⟩)
    obtain ⟨i, hi, j, hj, he⟩ := feedsBlock_iff.mp hfeeds
    exact ⟨i, hi, j, hj, .single he⟩

theorem schedule_perm (fuel : Nat) {remaining : List Block}
    (hsub : ∀ b ∈ remaining, b ∈ blocks ds) (hfuel : remaining.length ≤ fuel) :
    (schedule (relation ds) fuel remaining).Perm remaining := by
  induction fuel generalizing remaining with
  | zero =>
    rw [List.length_eq_zero_iff.mp (Nat.le_zero.mp hfuel)]
    exact List.Perm.refl _
  | succ fuel ih =>
    rw [schedule]
    cases hfind : remaining.find? (ready (relation ds) remaining) with
    | none =>
      by_cases hne : remaining = []
      · rw [hne]
      · obtain ⟨c, hc, hready⟩ := exists_ready hsub hne
        exact absurd hready (List.find?_eq_none.mp hfind c hc)
    | some c =>
      have hc : c ∈ remaining := List.mem_of_find?_eq_some hfind
      have hlen := List.length_erase_of_mem hc
      have hpos := List.length_pos_of_mem hc
      have hrest := ih (fun b hb => hsub b (List.mem_of_mem_erase hb))
        (by omega : (remaining.erase c).length ≤ fuel)
      exact (hrest.cons c).trans (List.perm_cons_erase hc).symm

theorem mem_of_mem_schedule {edges : Relation} {fuel : Nat} {remaining : List Block} {b : Block}
    (h : b ∈ schedule edges fuel remaining) : b ∈ remaining := by
  induction fuel generalizing remaining with
  | zero => cases h
  | succ fuel ih =>
    rw [schedule] at h
    cases hfind : remaining.find? (ready edges remaining) with
    | none => rw [hfind] at h; cases h
    | some c =>
      rw [hfind] at h
      rcases List.mem_cons.mp h with rfl | h
      · exact List.mem_of_find?_eq_some hfind
      · exact List.mem_of_mem_erase (ih h)

/-- **No later block feeds an earlier one.** -/
theorem schedule_pairwise {edges : Relation} (fuel : Nat) {remaining : List Block}
    (hnodup : remaining.Nodup) :
    (schedule edges fuel remaining).Pairwise fun c b => feedsBlock edges b c = false := by
  induction fuel generalizing remaining with
  | zero => exact List.Pairwise.nil
  | succ fuel ih =>
    rw [schedule]
    cases hfind : remaining.find? (ready edges remaining) with
    | none => exact List.Pairwise.nil
    | some c =>
      refine List.pairwise_cons.mpr ⟨fun b hb => ?_, ih (hnodup.erase c)⟩
      have hb' := mem_of_mem_schedule hb
      have hne : b ≠ c := fun e => hnodup.not_mem_erase (e ▸ hb')
      have hfirst : ready edges remaining c = true := List.find?_some hfind
      have hready := List.all_eq_true.mp hfirst b (List.mem_of_mem_erase hb')
      rw [Bool.or_eq_true, beq_iff_eq, Bool.not_eq_true'] at hready
      exact hready.resolve_left hne

/-- The blocks in the order of work. -/
def scheduled (ds : Declarations) : List Block :=
  schedule (relation ds) (blocks ds).length (blocks ds)

theorem scheduled_perm : (scheduled ds).Perm (blocks ds) :=
  schedule_perm _ (fun _ hb => hb) (Nat.le_refl _)

theorem scheduled_pairwise :
    (scheduled ds).Pairwise fun c b => feedsBlock (relation ds) b c = false :=
  schedule_pairwise _ nodup_blocks

theorem flatten_scheduled_perm (ds : Declarations) :
    (scheduled ds).flatten.Perm (List.range ds.length) :=
  (scheduled_perm.flatten).trans flatten_blocks_perm

end Order

/-! ## 4. Depth -/

section Depth

variable {edges : Relation}

/-- The blocks of a schedule with the size of the longest chain that ends in each, last first. -/
def chains (edges : Relation) (scheduled : List Block) : List (Block × Nat) :=
  scheduled.foldl (fun done c =>
    let before := done.foldl (fun most entry =>
      if feedsBlock edges entry.1 c then max most entry.2 else most) 0
    (c, before + c.length) :: done) []

/-- The size of the longest chain of blocks. -/
def longest (edges : Relation) (scheduled : List Block) : Nat :=
  (chains edges scheduled).foldl (fun most entry => max most entry.2) 0

/-- The longest of the chains that a block continues. -/
def continued (edges : Relation) (done : List (Block × Nat)) (c : Block) : Nat :=
  done.foldl (fun most entry => if feedsBlock edges entry.1 c then max most entry.2 else most) 0

theorem chains_concat (xs : List Block) (c : Block) :
    chains edges (xs ++ [c]) =
      (c, continued edges (chains edges xs) c + c.length) :: chains edges xs := by
  rw [chains, List.foldl_append]
  rfl

/-- A maximum over the entries that are let in is above each of them. -/
theorem le_foldl_max {α : Type} {p : α → Bool} {f : α → Nat} {xs : List α} {start : Nat} :
    start ≤ xs.foldl (fun most x => if p x then max most (f x) else most) start ∧
      ∀ x ∈ xs, p x = true →
        f x ≤ xs.foldl (fun most x => if p x then max most (f x) else most) start := by
  induction xs generalizing start with
  | nil => exact ⟨Nat.le_refl _, fun x hx => by cases hx⟩
  | cons y ys ih =>
    rw [List.foldl_cons]
    set next := if p y then max start (f y) else start with hnext
    have hstart : start ≤ next := by
      rw [hnext]
      split
      · exact Nat.le_max_left _ _
      · exact Nat.le_refl _
    refine ⟨Nat.le_trans hstart ih.1, fun x hx hp => ?_⟩
    rcases List.mem_cons.mp hx with rfl | hx
    · refine Nat.le_trans ?_ ih.1
      rw [hnext, if_pos hp]
      exact Nat.le_max_right _ _
    · exact ih.2 x hx hp

/-- The chains stand in reverse order of work. -/
theorem map_fst_chains (edges : Relation) (xs : List Block) :
    (chains edges xs).map Prod.fst = xs.reverse := by
  induction xs using List.reverseRecOn with
  | nil => rfl
  | append_singleton xs c ih =>
    rw [chains_concat, List.map_cons, ih, List.reverse_append]
    rfl

/-- A chain is as long as the longest that it continues, and its last block. -/
theorem chains_pairwise (xs : List Block) :
    (chains edges xs).Pairwise fun later earlier =>
      feedsBlock edges earlier.1 later.1 = true → earlier.2 + later.1.length ≤ later.2 := by
  induction xs using List.reverseRecOn with
  | nil => exact List.Pairwise.nil
  | append_singleton xs c ih =>
    rw [chains_concat]
    refine List.pairwise_cons.mpr ⟨fun earlier hmem hfeeds => ?_, ih⟩
    have hle : earlier.2 ≤ continued edges (chains edges xs) c :=
      le_foldl_max (p := fun e => feedsBlock edges e.1 c).2 earlier hmem hfeeds
    exact Nat.add_le_add_right hle _

theorem length_le_of_mem_chains {xs : List Block} {entry : Block × Nat}
    (h : entry ∈ chains edges xs) : entry.1.length ≤ entry.2 := by
  induction xs using List.reverseRecOn with
  | nil => cases h
  | append_singleton xs c ih =>
    rw [chains_concat] at h
    rcases List.mem_cons.mp h with rfl | h
    · exact Nat.le_add_left _ _
    · exact ih h

theorem le_longest {xs : List Block} {entry : Block × Nat} (h : entry ∈ chains edges xs) :
    entry.2 ≤ longest edges xs :=
  (le_foldl_max (p := fun _ => true)).2 entry h rfl

/-- Every block ends a chain. -/
theorem exists_chain {ds : Declarations} {b : Block} (hb : b ∈ blocks ds) :
    ∃ len, (b, len) ∈ chains (relation ds) (scheduled ds) := by
  have hmem : b ∈ (chains (relation ds) (scheduled ds)).map Prod.fst := by
    rw [map_fst_chains, List.mem_reverse]
    exact scheduled_perm.mem_iff.mpr hb
  obtain ⟨⟨b, len⟩, hentry, rfl⟩ := List.mem_map.mp hmem
  exact ⟨len, hentry⟩

/-- Of two different blocks of which one feeds the other, the fed one continues the chain. -/
theorem chain_add_le {ds : Declarations} {b c : Block × Nat}
    (hb : b ∈ chains (relation ds) (scheduled ds)) (hc : c ∈ chains (relation ds) (scheduled ds))
    (hne : b.1 ≠ c.1) (hfeeds : feedsBlock (relation ds) b.1 c.1 = true) :
    b.2 + c.1.length ≤ c.2 := by
  -- what is later in the schedule does not feed what is earlier
  have hback : (chains (relation ds) (scheduled ds)).Pairwise fun later earlier =>
      feedsBlock (relation ds) later.1 earlier.1 = false := by
    have hschedule := List.pairwise_reverse.mpr (@scheduled_pairwise ds)
    rw [← map_fst_chains (relation ds)] at hschedule
    exact List.pairwise_map.mp hschedule
  obtain ⟨i, hi, rfl⟩ := List.getElem_of_mem hb
  obtain ⟨j, hj, rfl⟩ := List.getElem_of_mem hc
  rcases Nat.lt_trichotomy i j with hij | rfl | hji
  · have := List.pairwise_iff_getElem.mp hback i j hi hj hij
    rw [hfeeds] at this
    cases this
  · exact absurd rfl hne
  · exact List.pairwise_iff_getElem.mp (chains_pairwise (scheduled ds)) j i hj hi hji hfeeds

end Depth

/-! ## 5. The plan without counters -/

section Greedy

variable {ds : Declarations}

/-- Whether a block is a circle: it has two members, or one that feeds itself. -/
def isCycle (edges : Relation) (c : Block) : Bool :=
  1 < c.length || c.any fun i => edges.holds i i

/-- The tags that a block both produces and consumes. -/
def innerTags (ds : Declarations) (c : Block) : List String :=
  let consumed := c.flatMap fun j =>
    match ds[j]? with
    | some d => d.contract.consumes.members
    | none => []
  (KeySet.ofMembers (consumed.filter fun tag => c.any fun i => ds.producesAt i tag)).members

theorem mem_innerTags {c : Block} {tag : String} :
    tag ∈ innerTags ds c ↔
      (∃ i ∈ c, ds.producesAt i tag = true) ∧ ∃ j ∈ c, ds.consumesAt j tag = true := by
  have hempty : ¬ Table.contains (∅ : Names) tag = true := Bool.false_ne_true
  rw [innerTags, KeySet.mem_members, KeySet.ofMembers, KeySet.contains_foldl_add,
    or_iff_left hempty, List.mem_filter, List.any_eq_true, and_comm, List.mem_flatMap]
  refine and_congr_right fun _ => exists_congr fun j => and_congr_right fun _ => ?_
  rw [Declarations.consumesAt]
  cases ds[j]? with
  | none => simp
  | some d => exact KeySet.mem_members

/-- The plan for some declarations, from their schedule. -/
def greedy (ds : Declarations) : Plan where
  order := (scheduled ds).flatten
  cycles := ((blocks ds).filter (isCycle (relation ds))).map fun c =>
    { names := ds.namesAt c, tags := innerTags ds c }
  depth := longest (relation ds) (scheduled ds)

theorem not_isCycle (hacyclic : (greedy ds).hasCycles = false)
    {i : Nat} (hi : i < ds.length) : isCycle (relation ds) (block ds i) ≠ true := by
  rw [hasCycles, Bool.not_eq_false', List.isEmpty_iff] at hacyclic
  exact List.filter_eq_nil_iff.mp (List.map_eq_nil_iff.mp hacyclic) _ (block_mem_blocks hi)

/-- Without circles no two different positions share a block. -/
theorem eq_of_together (hacyclic : (greedy ds).hasCycles = false)
    {i j : Nat} (hi : i < ds.length) (hj : j < ds.length) (h : Together ds i j) : i = j := by
  have hlen : (block ds i).length ≤ 1 := by
    by_contra hlong
    refine not_isCycle hacyclic hi (Bool.or_eq_true_iff.mpr (.inl ?_))
    exact decide_eq_true (Nat.lt_of_not_le hlong)
  have hself : i ∈ block ds i := mem_block.mpr ⟨hi, .inl rfl⟩
  have hother : j ∈ block ds i := mem_block.mpr ⟨hj, h⟩
  obtain ⟨k, hk⟩ := List.length_eq_one_iff.mp
    (Nat.le_antisymm hlen (List.length_pos_of_mem hself))
  rw [hk, List.mem_singleton] at hself hother
  rw [hself, hother]

theorem not_edge_self (hacyclic : (greedy ds).hasCycles = false)
    (i : Nat) : ¬ Edge ds i i := by
  intro h
  have hi : i < ds.length := h.lt.1
  refine not_isCycle hacyclic hi (Bool.or_eq_true_iff.mpr (.inr (List.any_eq_true.mpr ⟨i, ?_, h⟩)))
  exact mem_block.mpr ⟨hi, .inl rfl⟩

/-- **Without circles the positions have ranks**: a dependency raises the rank, and the ranks are
numbers from one to the depth. -/
theorem exists_rank (hacyclic : (greedy ds).hasCycles = false) :
    ∃ rank : Nat → Nat, (∀ i j, Edge ds i j → rank i < rank j) ∧
      ∀ i < ds.length, 0 < rank i ∧ rank i ≤ (greedy ds).depth := by
  have hchain : ∀ i, ∃ len, i < ds.length →
      (block ds i, len) ∈ chains (relation ds) (scheduled ds) := by
    intro i
    by_cases hi : i < ds.length
    · obtain ⟨len, h⟩ := exists_chain (block_mem_blocks hi)
      exact ⟨len, fun _ => h⟩
    · exact ⟨0, fun h => absurd h hi⟩
  choose rank hrank using hchain
  have hself : ∀ i < ds.length, i ∈ block ds i := fun i hi => mem_block.mpr ⟨hi, .inl rfl⟩
  refine ⟨rank, fun i j hij => ?_, fun i hi => ⟨?_, le_longest (hrank i hi)⟩⟩
  case refine_2 =>
    exact Nat.lt_of_lt_of_le (List.length_pos_of_mem (hself i hi))
      (length_le_of_mem_chains (hrank i hi))
  obtain ⟨hi, hj⟩ := hij.lt
  refine Nat.lt_of_lt_of_le (Nat.lt_add_of_pos_right (List.length_pos_of_mem (hself j hj)))
    (chain_add_le (hrank i hi) (hrank j hj) (fun hsame => ?_)
      (feedsBlock_iff.mpr ⟨i, hself i hi, j, hself j hj, hij⟩))
  -- one block would be one position, which would feed itself
  have hmem : j ∈ block ds i := by
    rw [show block ds i = block ds j from hsame]
    exact hself j hj
  have heq : i = j := eq_of_together hacyclic hi hj (mem_block.mp hmem).2
  exact not_edge_self hacyclic j (heq ▸ hij)

end Greedy

end Plan

end FactGraph
