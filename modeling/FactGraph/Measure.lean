import FactGraph.Value.Text

/-!
# Measures

What a metric is made of.  The graph only ever needs zero, sums, counts and the test that a value is
finite; and it needs to know what a value looks like after it has been kept in storage.  Programs
run on machine numbers; statements about sums can be made for any measure, an exact one included.
-/

namespace FactGraph

/-- Values that can be measured, added up and stored. -/
class Measure (μ : Type) where
  zero : μ
  add : μ → μ → μ
  ofNat : Nat → μ
  isFinite : μ → Bool
  /-- The value as it comes back from storage. -/
  stored : μ → μ
  /-- Storage keeps finite values finite. -/
  isFinite_stored {x : μ} : isFinite x = true → isFinite (stored x) = true

/-- Machine numbers; a stored one is written with its shortest digits and read again. -/
instance : Measure Float where
  zero := 0.0
  add := (· + ·)
  ofNat n := n.toFloat
  isFinite := Float.isFinite
  stored := Value.reread
  isFinite_stored := Value.isFinite_reread

/-- The metrics of a node. -/
abbrev Metrics (μ : Type) := Table String μ

end FactGraph
