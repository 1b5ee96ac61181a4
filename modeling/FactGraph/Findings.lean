import FactGraph.Edge
import FactGraph.Node

/-!
# Findings

While an analyzer looks at a node it writes nothing into the store.  What it finds is collected: nodes
it saw, edges, and for each node a patch.  A patch adds tags, sets properties and metrics, and adds to
sums, each sum with a count of its contributions.
-/

namespace FactGraph

/-- A sum and the number of its contributions. -/
structure Tally (μ : Type) where
  total : μ
  count : Nat

namespace Tally

variable {μ : Type} [Measure μ]

/-- No contributions. -/
def none : Tally μ := ⟨Measure.zero, 0⟩

/-- One contribution more. -/
def add (t : Tally μ) (x : μ) : Tally μ := ⟨Measure.add t.total x, t.count + 1⟩

end Tally

/-- Changes to one node. -/
structure Patch (μ : Type) where
  tags : Names := ∅
  properties : Properties := ∅
  metrics : Metrics μ := ∅
  sums : Table String (Tally μ) := ∅

namespace Patch

variable {μ : Type}

/-- The property that counts the contributions to a metric. -/
def counter (metric : String) : String := metric ++ "_count"

/-- The count kept in a property; anything but a natural machine word counts as none. -/
def counted (properties : Properties) (key : String) : Nat :=
  ((properties.get? key).bind Value.word?).getD 0

/-- Add a sum to a node: to its metric, and to the counter of that metric. -/
def addSum [Measure μ] (n : Node μ) (metric : String) (sum : Tally μ) : Node μ :=
  let before := (n.metrics.get? metric).getD Measure.zero
  let count : Nat := (counted n.properties (counter metric) + sum.count) % Nat.pow 2 64
  { n with
    metrics := n.metrics.insert metric (Measure.add before sum.total)
    properties := n.properties.insert (counter metric) (.int count) }

/-- Apply a patch to a node; sums come after everything else. -/
def apply [Measure μ] (p : Patch μ) (n : Node μ) : Node μ :=
  let n :=
    { n with
      tags := n.tags.union p.tags
      properties := n.properties.overlay p.properties
      metrics := n.metrics.overlay p.metrics }
  p.sums.rows.foldl (fun n row => addSum n row.1 row.2) n

end Patch

/-- What an analyzer found on one node. -/
structure Findings (μ : Type) where
  /-- Nodes that were seen, in order. -/
  observed : List (Node μ) := []
  /-- Changes by node. -/
  patches : Table String (Patch μ) := ∅
  edges : List Edge := []
  errors : List String := []

namespace Findings

variable {μ : Type}

/-- Whether nothing was found. -/
def isEmpty (f : Findings μ) : Bool :=
  f.observed.isEmpty && f.patches.isEmpty && f.edges.isEmpty && f.errors.isEmpty

/-- Change the patch of a node. -/
def patch (f : Findings μ) (node : String) (change : Patch μ → Patch μ) : Findings μ :=
  { f with patches := f.patches.modify node fun p => change (p.getD {}) }

/-- Add a tag. -/
def tag (f : Findings μ) (node tag : String) : Findings μ :=
  f.patch node fun p => { p with tags := p.tags.add tag }

/-- Set a property. -/
def property (f : Findings μ) (node key : String) (value : Value) : Findings μ :=
  f.patch node fun p => { p with properties := p.properties.insert key value }

/-- Set a metric; a value that is not finite is dropped. -/
def metric [Measure μ] (f : Findings μ) (node key : String) (value : μ) : Findings μ :=
  if Measure.isFinite value then
    f.patch node fun p => { p with metrics := p.metrics.insert key value }
  else f

/-- Contribute to a sum; a value that is not finite is dropped. -/
def sum [Measure μ] (f : Findings μ) (node key : String) (value : μ) : Findings μ :=
  if Measure.isFinite value then
    f.patch node fun p => { p with sums := p.sums.modify key fun t => (t.getD Tally.none).add value }
  else f

/-- Add a node that was seen. -/
def observe (f : Findings μ) (n : Node μ) : Findings μ := { f with observed := f.observed ++ [n] }

/-- Add an edge. -/
def edge (f : Findings μ) (e : Edge) : Findings μ := { f with edges := f.edges ++ [e] }

/-- The tag of nodes on which something went wrong. -/
def errorTag : String := "error"

/-- The tag and property of nodes on which a given analyzer went wrong. -/
def errorKey (analyzer : String) : String := errorTag ++ ":" ++ analyzer

/-- Note that something went wrong. -/
def error (f : Findings μ) (analyzer node message : String) : Findings μ :=
  let key := errorKey analyzer
  let f := f.patch node fun p =>
    { p with
      tags := (p.tags.add errorTag).add key
      properties := p.properties.insert key (.str message) }
  { f with errors := f.errors ++ [message] }

/-- What is kept of a failed inspection: only that it failed. -/
def failure (analyzer node message : String) : Findings μ := error {} analyzer node message

end Findings

end FactGraph
