import FactGraph.Builtin.Collector
import FactGraph.Builtin.Sniffer

/-!
# Counting lines

The line counter measures text files and adds each count to the file's container.
-/

namespace FactGraph

namespace Builtin

variable {μ : Type}

/-- The tag of measured files. -/
def measuredTag : String := "measured"

/-- The metric that counts lines. -/
def linesKey : String := "lines"

/-- The number of lines: each line feed ends one, and so does the end after anything else. -/
def countLines (content : Bytes) : Nat :=
  let feeds := content.countP (· == 0x0A)
  match content.getLast? with
  | none => feeds
  | some b => if b == 0x0A then feeds else feeds + 1

/-- The container of a resource. -/
def parentOf? (n : Node μ) : Option String := (n.properties.get? parentKey).bind Value.text?

/-- What is found on a file with a given number of lines. -/
def lineFindings [Measure μ] (n : Node μ) (lines : Nat) : Findings μ :=
  let count : μ := Measure.ofNat lines
  let f := (Findings.metric {} n.id linesKey count).tag n.id measuredTag
  match parentOf? n with
  | some parent => f.sum parent linesKey count
  | none => f

/-- The analyzer that counts lines. -/
def lineCounter [Measure μ] : Analyzer Context μ :=
  { name := "line-counter"
    targets := [fileKind]
    contract := { consumes := KeySet.ofMembers [textTag], produces := KeySet.ofMembers [measuredTag] }
    inspect := fun context n =>
      match Context.locate n.id >>= context.read with
      | .error e => { findings := {}, verdict := .failed e.message }
      | .ok content => { findings := lineFindings n (countLines content), verdict := .done } }

/-- The built-in analyzers. -/
def roster [Measure μ] : Roster Context μ := ⟨[collector, sniffer, lineCounter]⟩

end Builtin

end FactGraph
