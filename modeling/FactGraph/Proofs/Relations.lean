import FactGraph.Relation
import Mathlib.Logic.Relation

/-!
# The closure is reachability

`Relation.closure` admits the numbers below the bound one after the other as places to pass through.
Its invariant is `Relation.Route`: after `k` of them, two places are related exactly when a way
leads from one to the other that passes only through places below `k`.

The one fact behind the step is `Relation.route_succ`: a way that may also pass through `k` either
does not, or can be cut into a way to `k` and a way from `k` that do not.  Loops at `k` are dropped
on the way, so no visit has to be singled out as the first or the last.
-/

namespace FactGraph

namespace Relation

/-! ## 1. Ways through small places -/

/-- A way from `i` to `j` of one or more steps that passes only through places below `k`. -/
inductive Route (edge : Nat → Nat → Prop) (k : Nat) : Nat → Nat → Prop
  | step {i j : Nat} : edge i j → Route edge k i j
  | cons {i m j : Nat} : edge i m → m < k → Route edge k m j → Route edge k i j

variable {edge : Nat → Nat → Prop} {k i j : Nat}

theorem Route.mono {k' : Nat} (h : Route edge k i j) (hk : k ≤ k') : Route edge k' i j := by
  induction h with
  | step he => exact .step he
  | cons he hm _ ih => exact .cons he (Nat.lt_of_lt_of_le hm hk) ih

theorem Route.trans {m : Nat} (h : Route edge k i m) (hm : m < k) (h' : Route edge k m j) :
    Route edge k i j := by
  induction h with
  | step he => exact .cons he hm h'
  | cons he hlt _ ih => exact .cons he hlt (ih hm h')

/-- **One more place to pass through.** -/
theorem route_succ : Route edge (k + 1) i j ↔
    Route edge k i j ∨ (Route edge k i k ∧ Route edge k k j) := by
  constructor
  · intro h
    induction h with
    | step he => exact .inl (.step he)
    | @cons i m j he hm _ ih =>
      rcases Nat.lt_succ_iff_lt_or_eq.mp hm with hlt | rfl
      · rcases ih with h | ⟨h₁, h₂⟩
        · exact .inl (.cons he hlt h)
        · exact .inr ⟨.cons he hlt h₁, h₂⟩
      · -- the way arrives at `k`: whatever loop follows there can be left out
        rcases ih with h | ⟨-, h₂⟩
        · exact .inr ⟨.step he, h⟩
        · exact .inr ⟨.step he, h₂⟩
  · rintro (h | ⟨h₁, h₂⟩)
    · exact h.mono (Nat.le_succ k)
    · exact (h₁.mono (Nat.le_succ k)).trans (Nat.lt_succ_self k) (h₂.mono (Nat.le_succ k))

theorem transGen_of_route (h : Route edge k i j) : Relation.TransGen edge i j := by
  induction h with
  | step he => exact .single he
  | cons he _ _ ih => exact .head he ih

/-- If every step leads below `k`, passing below `k` is no restriction. -/
theorem route_of_transGen (hbound : ∀ {i j}, edge i j → j < k) (h : Relation.TransGen edge i j) :
    Route edge k i j := by
  induction h using Relation.TransGen.head_induction_on with
  | single he => exact .step he
  | head he _ ih => exact .cons he (hbound he) ih

/-! ## 2. The table of answers -/

theorem holds_tabulate_iff {size : Nat} {answer : Nat → Nat → Bool} :
    (tabulate size answer).holds i j = true ↔ i < size ∧ j < size ∧ answer i j = true := by
  by_cases hi : i < size
  · by_cases hj : j < size
    · rw [holds_tabulate hi hj]
      simp [hi, hj]
    · simp [tabulate, holds, hi, hj]
  · simp [tabulate, holds, hi]

theorem size_foldl_through (pivots : List Nat) (r : Relation) :
    (pivots.foldl through r).size = r.size := by
  induction pivots generalizing r with
  | nil => rfl
  | cons k rest ih => rw [List.foldl_cons, ih]; rfl

theorem size_closure (r : Relation) : r.closure.size = r.size := size_foldl_through _ r

/-- After `k` places, the answers are the ways through places below `k`. -/
theorem holds_foldl_through {size : Nat} {answer : Nat → Nat → Bool} (k : Nat) :
    ((List.range k).foldl through (tabulate size answer)).holds i j = true ↔
      Route (fun i j => (tabulate size answer).holds i j = true) k i j := by
  induction k generalizing i j with
  | zero =>
    rw [List.range_zero, List.foldl_nil]
    constructor
    · intro h
      exact .step h
    · intro h
      cases h with
      | step he => exact he
      | cons _ hm _ => exact absurd hm (Nat.not_lt_zero _)
  | succ k ih =>
    rw [List.range_succ, List.foldl_append, List.foldl_cons, List.foldl_nil, through,
      holds_tabulate_iff, size_foldl_through, Bool.or_eq_true, Bool.and_eq_true, ih, ih, ih,
      route_succ]
    constructor
    · exact fun h => h.2.2
    · -- a way starts and ends inside the table, since its first and last steps do
      intro h
      have hends : ∀ {i j}, Route (fun i j => (tabulate size answer).holds i j = true) k i j →
          i < size ∧ j < size := by
        intro i j h
        induction h with
        | step he => exact ⟨(holds_tabulate_iff.mp he).1, (holds_tabulate_iff.mp he).2.1⟩
        | cons he _ _ ih => exact ⟨(holds_tabulate_iff.mp he).1, ih.2⟩
      rcases h with h | ⟨h₁, h₂⟩
      · exact ⟨(hends h).1, (hends h).2, .inl h⟩
      · exact ⟨(hends h₁).1, (hends h₂).2, .inr ⟨h₁, h₂⟩⟩

/-- **The closure is reachability by one or more steps.** -/
theorem holds_closure_tabulate {size : Nat} {answer : Nat → Nat → Bool} :
    (tabulate size answer).closure.holds i j = true ↔
      Relation.TransGen (fun i j => (tabulate size answer).holds i j = true) i j := by
  rw [closure, holds_foldl_through]
  constructor
  · exact transGen_of_route
  · exact route_of_transGen fun he => (holds_tabulate_iff.mp he).2.1

end Relation

end FactGraph
