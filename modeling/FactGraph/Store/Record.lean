import FactGraph.Store.Query
import FactGraph.Value.Text

/-!
# Records

Locations, nodes, edges and ledger rows as values, and a whole graph as one text, which is how it is
kept between runs.  A record is read from an object by the names of its fields, or from a list in
their order.
-/

namespace FactGraph

namespace Value

/-- A number as a measured value. -/
def number? : Value → Option Float
  | .int n =>
    some (if n < 0 then -(UInt64.ofNat n.natAbs).toFloat else (UInt64.ofNat n.toNat).toFloat)
  | .float x => some x
  | _ => none

/-- A list of texts. -/
def texts (ts : List String) : Value := .arr (ts.map .str)

/-- A text, or null. -/
def ofText? (t : Option String) : Value := (t.map .str).getD .null

/-- The fields of a record given as an object, or in order as a list. -/
def record? (keys : List String) : Value → Option (List (String × Value))
  | .obj fs => some fs
  | .arr xs => if xs.length ≤ keys.length then some (keys.zip xs) else none
  | _ => none

/-- What a value is, said of one that was not expected. -/
def described : Value → String
  | .null => "null"
  | .bool b => if b then "boolean `true`" else "boolean `false`"
  | .int n => "integer `" ++ toString n ++ "`"
  | .float x => "floating point `" ++ (Decimal.shortest x).marked ++ "`"
  | .str text => "string " ++ quote text
  | .arr _ => "sequence"
  | .obj _ => "map"

end Value

/-- The location in a value, which is the text of its URI. -/
def Location.ofValue : Value → Result Location
  | .str uri => (Location.parse uri).mapError fun fault => .serialization (Error.ofLocation fault).message
  | v => .error (.serialization ("invalid type: " ++ v.described ++ ", expected a string"))

/-! ## 1. Nodes -/

namespace Node

/-- A node as a value. -/
def toValue (n : Node Float) : Value :=
  .object
    [("id", .str n.id), ("type", .str n.kind), ("display_label", .str n.label),
     ("properties", .obj n.properties.rows), ("tags", .texts n.tags.members),
     ("metrics", .obj (n.metrics.rows.map fun (k, x) => (k, .float x)))]

/-- The node in a value. -/
def ofValue? (v : Value) : Option (Node Float) := do
  let fs ← v.record? ["id", "type", "display_label", "properties", "tags", "metrics"]
  let id ← (← fs.lookup "id").text?
  let kind ← (← fs.lookup "type").text?
  let label ← (← fs.lookup "display_label").text?
  let properties ← match fs.lookup "properties" with
    | none => some []
    | some (.obj ps) => some ps
    | some _ => none
  let tags ← match fs.lookup "tags" with
    | none => some []
    | some (.arr ts) => ts.mapM Value.text?
    | some _ => none
  let metrics ← match fs.lookup "metrics" with
    | none => some []
    | some (.obj ms) => ms.mapM fun (k, x) => x.number?.map (k, ·)
    | some _ => none
  return { id, kind, label, properties := Table.ofList properties
           tags := KeySet.ofMembers tags, metrics := Table.ofList metrics }

end Node

/-! ## 2. Edges -/

namespace Edge

/-- An edge as a value. -/
def toValue (e : Edge) : Value :=
  .object ([("source", .str e.source), ("target", .str e.target), ("type", .str e.kind)] ++
    e.metadata.toList.map fun m => ("metadata", m))

/-- The edge in a value; metadata that is null counts as none. -/
def ofValue? (v : Value) : Option Edge := do
  let fs ← v.record? ["source", "target", "type", "metadata"]
  let source ← (← fs.lookup "source").text?
  let target ← (← fs.lookup "target").text?
  let kind ← (← fs.lookup "type").text?
  return ⟨source, target, kind, (fs.lookup "metadata").filter (!·.isNull)⟩

/-- The edge in a kept value, in which null is metadata like any other. -/
def ofKept? (v : Value) : Option Edge :=
  (ofValue? v).map fun e => { e with metadata := v.field? "metadata" }

end Edge

/-! ## 3. Ledger rows -/

namespace LedgerRow

/-- A ledger row as a value. -/
def toValue (row : LedgerRow) : Value :=
  .object
    [("unit", .str row.pair.analyzer), ("node_id", .str row.pair.node),
     ("outcome", .str row.finish.outcome.name), ("pass", .int row.finish.pass),
     ("message", .ofText? row.finish.message)]

/-- The ledger row in a value. -/
def ofValue? (v : Value) : Option LedgerRow := do
  let fs ← v.record? ["unit", "node_id", "outcome", "pass", "message"]
  let analyzer ← (← fs.lookup "unit").text?
  let node ← (← fs.lookup "node_id").text?
  let outcome ← (← (← fs.lookup "outcome").text?) |> Outcome.ofName?
  let pass ← (← fs.lookup "pass").word?
  let message ← match fs.lookup "message" with
    | none | some .null => some none
    | some (.str m) => some (some m)
    | some _ => none
  if pass < Nat.pow 2 32 then return ⟨⟨analyzer, node⟩, ⟨outcome, pass, message⟩⟩ else none

end LedgerRow

/-! ## 4. Graphs -/

namespace Store

/-- A graph as a value. -/
def toValue (g : Store Float) : Value :=
  .object
    [("nodes", .arr (g.allNodes.map Node.toValue)), ("edges", .arr (g.allEdges.map Edge.toValue)),
     ("runs", .arr (g.ledgerRows.map LedgerRow.toValue))]

/-- The graph in a kept value. -/
def ofValue? (v : Value) : Option (Store Float) := do
  let items (key : String) : Option (List Value) := match v.field? key with
    | some (.arr xs) => some xs
    | _ => none
  let nodes ← (← items "nodes").mapM Node.ofValue?
  let edges ← (← items "edges").mapM Edge.ofKept?
  let rows ← (← items "runs").mapM LedgerRow.ofValue?
  let (g, _) ← ((Store.empty.mergeNodes nodes).createEdges edges).toOption
  (g.record rows).toOption

/-- The text in which a graph is kept. -/
def keep (g : Store Float) : String := g.toValue.render

/-- The graph that a text keeps. -/
def ofKept? (text : String) : Option (Store Float) := (Value.parse? text).bind ofValue?

end Store

end FactGraph
