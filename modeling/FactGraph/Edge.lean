import FactGraph.Value.Text

/-!
# Edges

An edge joins two nodes by a kind of relation.  Its identity is its two ends and its kind; what else
is known about it is metadata.
-/

namespace FactGraph

open Std

/-- The identity of an edge. -/
structure EdgeKey where
  source : String
  target : String
  kind : String
deriving DecidableEq, Repr

namespace EdgeKey

/-- Edges are ordered by source, then target, then kind. -/
def order : EdgeKey → EdgeKey → Ordering :=
  compareLex (compareOn source) (compareLex (compareOn target) (compareOn kind))

instance : Ord EdgeKey := ⟨order⟩

instance : TransOrd EdgeKey :=
  inferInstanceAs (TransCmp (compareLex (compareOn source) (compareLex (compareOn target) (compareOn kind))))

instance : LawfulEqOrd EdgeKey where
  compare_self := ReflCmp.compare_self
  eq_of_compare {a b} h := by
    have h : order a b = .eq := h
    simp only [order, compareLex, compareOn, Ordering.then_eq_eq, Std.compare_eq_iff_eq] at h
    obtain ⟨h₁, h₂, h₃⟩ := h
    cases a; cases b; simp_all

end EdgeKey

/-- A relation between two nodes. -/
structure Edge where
  source : String
  target : String
  kind : String
  metadata : Option Value := none

namespace Edge

/-- The identity of an edge. -/
def key (e : Edge) : EdgeKey := ⟨e.source, e.target, e.kind⟩

/-- The edge with a given identity and metadata. -/
def ofKey (k : EdgeKey) (metadata : Option Value) : Edge := ⟨k.source, k.target, k.kind, metadata⟩

end Edge

end FactGraph
