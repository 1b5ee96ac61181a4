import FactGraph.Table

/-!
# The ledger

The ledger remembers which analyzer has finished on which node, and how.  A pair that stands in it
is never evaluated again.
-/

namespace FactGraph

open Std

/-- How an analyzer finished on a node. -/
inductive Outcome where
  | ran
  | skipped
  | failed
deriving DecidableEq, Repr

namespace Outcome

/-- The name of an outcome. -/
def name : Outcome → String
  | .ran => "ran"
  | .skipped => "skipped_not_applicable"
  | .failed => "error"

/-- The outcome of a given name. -/
def ofName? (text : String) : Option Outcome :=
  [ran, skipped, failed].find? fun outcome => outcome.name = text

end Outcome

/-- An analyzer and a node. -/
structure Pair where
  analyzer : String
  node : String
deriving DecidableEq, Repr

namespace Pair

/-- Pairs are ordered by analyzer, then node. -/
def order : Pair → Pair → Ordering := compareLex (compareOn analyzer) (compareOn node)

instance : Ord Pair := ⟨order⟩

instance : TransOrd Pair :=
  inferInstanceAs (TransCmp (compareLex (compareOn analyzer) (compareOn node)))

instance : LawfulEqOrd Pair where
  compare_self := ReflCmp.compare_self
  eq_of_compare {a b} h := by
    have h : order a b = .eq := h
    simp only [order, compareLex, compareOn, Ordering.then_eq_eq, Std.compare_eq_iff_eq] at h
    cases a; cases b; simp_all

end Pair

/-- What the ledger keeps about a finished pair. -/
structure Finish where
  outcome : Outcome
  pass : Nat
  message : Option String
deriving DecidableEq, Repr

/-- A row of the ledger. -/
structure LedgerRow where
  pair : Pair
  finish : Finish
deriving DecidableEq, Repr

end FactGraph
