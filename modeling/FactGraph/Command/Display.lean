import FactGraph.Decimal
import FactGraph.Diagnostic
import FactGraph.Edge
import FactGraph.Error
import FactGraph.Node

/-!
# Lines of output

How nodes, edges, diagnostics and sizes are shown, as lists of lines.
-/

namespace FactGraph

namespace Display

/-- A node: its id, type and tags, and its metrics on a line of their own. -/
def node (n : Node Float) : List String :=
  let tags := Split.join ", " n.tags.members
  let metrics := n.metrics.rows.map fun (k, x) => k ++ "=" ++ (Decimal.shortest x).plain
  (("  " ++ n.id ++ " (" ++ n.kind ++ ") [" ++ tags ++ "]") ::
    if metrics.isEmpty then [] else ["    " ++ Split.join " " metrics])

/-- An edge, as seen from one of its ends. -/
def edge (incoming : Bool) (e : Edge) : String :=
  if incoming then "  <- " ++ e.kind ++ " " ++ e.source else "  -> " ++ e.kind ++ " " ++ e.target

/-- How many diagnostics are shown. -/
def mostDiagnostics : Nat := 10

/-- Diagnostics under a title; there is nothing to show without any. -/
def diagnostics (title : String) (ds : List Diagnostic) : List String :=
  if ds.isEmpty then []
  else
    let count := ds.length
    let more := count - mostDiagnostics
    ["", s!"{title} ({count}):"] ++
      (ds.take mostDiagnostics).map (fun d => "  • " ++ d.text) ++
      (if more = 0 then [] else [s!"  • ... and {more} more"])

/-- A number of bytes in the largest unit that is not above it, with one decimal. -/
def size (bytes : Nat) : String :=
  if Nat.pow 2 30 ≤ bytes then Decimal.onePlace bytes (Nat.pow 2 30) ++ " GB"
  else if Nat.pow 2 20 ≤ bytes then Decimal.onePlace bytes (Nat.pow 2 20) ++ " MB"
  else if Nat.pow 2 10 ≤ bytes then Decimal.onePlace bytes (Nat.pow 2 10) ++ " KB"
  else Decimal.digitText bytes ++ " B"

/-- Names behind a label, if there are any. -/
def names (label : String) (names : List String) : List String :=
  if names.isEmpty then [] else ["    " ++ label ++ ": " ++ Split.join ", " names]

/-- An error, and what caused it. -/
def error (e : Error) : List String :=
  ("error: " ++ e.message) :: e.causes.map ("  caused by: " ++ ·)

end Display

end FactGraph
