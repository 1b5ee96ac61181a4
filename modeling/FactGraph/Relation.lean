/-!
# Finite relations

A relation on the numbers below a bound, kept as a table of truth values so that a question costs one
look-up.  The closure adds the numbers one after the other as places to pass through: after `k` of
them, two places are related exactly when a way leads from one to the other through places below `k`.
-/

namespace FactGraph

/-- A relation on the numbers below `size`. -/
structure Relation where
  size : Nat
  rows : Array (Array Bool)

namespace Relation

/-- Whether `i` is related to `j`. -/
def holds (r : Relation) (i j : Nat) : Bool := (r.rows.getD i #[]).getD j false

/-- The relation with the given answers. -/
def tabulate (size : Nat) (answer : Nat → Nat → Bool) : Relation :=
  ⟨size, Array.ofFn fun i : Fin size => Array.ofFn fun j : Fin size => answer i j⟩

/-- Also pass through `k`. -/
def through (r : Relation) (k : Nat) : Relation :=
  tabulate r.size fun i j => r.holds i j || (r.holds i k && r.holds k j)

/-- The relation "one or more steps lead from `i` to `j`". -/
def closure (r : Relation) : Relation := (List.range r.size).foldl through r

theorem holds_tabulate {size : Nat} {answer : Nat → Nat → Bool} {i j : Nat} (hi : i < size)
    (hj : j < size) : (tabulate size answer).holds i j = answer i j := by
  simp [tabulate, holds, hi, hj]

end Relation

end FactGraph
