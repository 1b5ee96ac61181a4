import FactGraph.Store.Query
import FactGraph.Value.Text

/-!
# Reading back

What a store holds is kept as text: the properties of a node as one object, the metadata of an edge
as one value.  Writing that text has no limit, but reading it back has one.  A value that is nested
too deeply is stored without complaint, and from then on it is refused whenever it has to be read.
Counting facts takes the text apart in another way, whose limit is wider.
-/

namespace FactGraph

namespace Value

/-- Whether a value that was written can be read back. -/
def legible (v : Value) : Bool := v.nesting ≤ nestingLimit

/-- The error for a value that cannot be read back.  It names the place where it is nested too
deeply. -/
def refusal (v : Value) : Error :=
  let place := (overrun? nestingLimit 0 1 false false v.render.toList).getD 0
  let cause := "Malformed JSON in column 3: recursion limit exceeded at line 1 column " ++
    toString place ++ ". Database may be corrupted."
  .database ("Conversion error from type Text at index: 3, " ++ cause) (some cause)

/-- How deeply a value may be nested where its keys are counted. -/
def countingLimit : Nat := 1000

end Value

namespace Node

variable {μ : Type}

/-- The properties of a node as one value. -/
def record (n : Node μ) : Value := .obj n.properties.rows

/-- Whether a node can be read back. -/
def legible (n : Node μ) : Bool := n.record.legible

/-- Whether the properties of a node can be counted. -/
def countable (n : Node μ) : Bool := n.record.nesting ≤ Value.countingLimit

/-- Why the properties of some nodes cannot be counted, if they cannot. -/
def uncounted? (nodes : List (Node μ)) : Option Error :=
  if nodes.all countable then none
  else some (.database "malformed JSON" (some "Error code 1: SQL logic error"))

/-- Why some nodes cannot be read back, if they cannot: the first refusal. -/
def refused? (nodes : List (Node μ)) : Option Error :=
  (nodes.find? fun n => !n.legible).map fun n => n.record.refusal

end Node

namespace Edge

/-- Why some edges cannot be read back, if they cannot: the first refusal. -/
def refused? (edges : List Edge) : Option Error :=
  (edges.findSome? fun e => e.metadata.filter fun v => !v.legible).map Value.refusal

end Edge

end FactGraph
