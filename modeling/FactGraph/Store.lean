import FactGraph.Edge
import FactGraph.Error
import FactGraph.Ledger
import FactGraph.Node

/-!
# The store

The store holds the graph and the ledger.  Nodes and their tags stand in tables of their own: a node
is a row together with the tags that are assigned to its id.

A batch is written as a whole or not at all, an edge needs both its ends, a ledger row needs its
node, and with a node everything that refers to it goes.  Writing a node again replaces it and its
tags and keeps its edges and its ledger rows; writing an edge again changes nothing.
-/

namespace FactGraph

open Std

/-- A node without its tags. -/
structure Row (μ : Type) where
  id : String
  kind : String
  label : String
  properties : Properties
  metrics : Metrics μ

/-- The row of a node. -/
def Node.row {μ : Type} (n : Node μ) : Row μ := ⟨n.id, n.kind, n.label, n.properties, n.metrics⟩

/-- The node of a row with some tags. -/
def Row.node {μ : Type} (row : Row μ) (tags : Names) : Node μ :=
  ⟨row.id, row.kind, row.label, row.properties, tags, row.metrics⟩

/-- A tag that is assigned to an id. -/
structure Tagging where
  node : String
  tag : String
deriving DecidableEq, Repr

namespace Tagging

/-- Tag assignments are ordered by node, then tag. -/
def order : Tagging → Tagging → Ordering := compareLex (compareOn node) (compareOn tag)

instance : Ord Tagging := ⟨order⟩

instance : TransOrd Tagging :=
  inferInstanceAs (TransCmp (compareLex (compareOn node) (compareOn tag)))

instance : LawfulEqOrd Tagging where
  compare_self := ReflCmp.compare_self
  eq_of_compare {a b} h := by
    have h : order a b = .eq := h
    simp only [order, compareLex, compareOn, Ordering.then_eq_eq, Std.compare_eq_iff_eq] at h
    cases a; cases b; simp_all

end Tagging

/-- The graph and the ledger. -/
structure Store (μ : Type) where
  rows : Table String (Row μ) := ∅
  tags : KeySet Tagging := ∅
  edges : Table EdgeKey (Option Value) := ∅
  ledger : Table Pair Finish := ∅

namespace Store

variable {μ : Type}

/-- The store that holds nothing. -/
def empty : Store μ := {}

instance : Inhabited (Store μ) := ⟨empty⟩

/-! ## 1. Nodes -/

/-- The tags that are assigned to an id. -/
def tagsOf (s : Store μ) (id : String) : Names :=
  KeySet.ofMembers ((s.tags.members.filter (·.node == id)).map Tagging.tag)

/-- The nodes by id, each with its tags. -/
def nodes (s : Store μ) : Table String (Node μ) :=
  s.rows.mapValues fun id row => row.node (s.tagsOf id)

/-- Whether a node is stored. -/
def contains (s : Store μ) (id : String) : Bool := s.rows.contains id

/-- The node of an id. -/
def node? (s : Store μ) (id : String) : Option (Node μ) :=
  (s.rows.get? id).map fun row => row.node (s.tagsOf id)

/-- The tag assignments but those of an id. -/
def tagsWithout (s : Store μ) (id : String) : KeySet Tagging := s.tags.filter fun t _ => t.node != id

/-- Write a node, replacing the one of the same id: first its row, then its tags. -/
def mergeNode [Measure μ] (s : Store μ) (n : Node μ) : Store μ :=
  { s with
    rows := s.rows.insert n.id n.stored.row
    tags := n.tags.members.foldl (fun tags tag => tags.add ⟨n.id, tag⟩) (s.tagsWithout n.id) }

/-- Write nodes one after the other. -/
def mergeNodes [Measure μ] (s : Store μ) (batch : List (Node μ)) : Store μ :=
  batch.foldl mergeNode s

/-- Remove a node with its tags, its edges and its ledger rows. -/
def delete (s : Store μ) (id : String) : Store μ :=
  { rows := s.rows.erase id
    tags := s.tagsWithout id
    edges := s.edges.filter fun key _ => key.source != id && key.target != id
    ledger := s.ledger.filter fun pair _ => pair.node != id }

/-- Delete a node, and say whether it was there: whether fewer nodes are left. -/
def deleteNode (s : Store μ) (id : String) : Store μ × Bool :=
  let rest := s.delete id
  (rest, rest.rows.size < s.rows.size)

/-! ## 2. Edges -/

/-- The first end of an edge that is no stored node, the source before the target. -/
def missingEnd? (s : Store μ) (e : Edge) : Option String :=
  if !s.contains e.source then some e.source
  else if !s.contains e.target then some e.target
  else none

/-- The error for an edge without one of its ends. -/
def missingEndError (e : Edge) (missing : String) : Error :=
  .notFound s!"edge endpoint '{missing}' ({e.source} -[{e.target}]-> {e.kind})"

/-- Write one edge whose ends are stored; an edge that is there stays as it is. -/
def addEdge (s : Store μ) (e : Edge) : Store μ × Nat :=
  if s.edges.contains e.key then (s, 0)
  else ({ s with edges := s.edges.insert e.key (e.metadata.map Value.stored) }, 1)

/-- Write edges one after the other, and count the new ones. -/
def createEdges (s : Store μ) : List Edge → Result (Store μ × Nat)
  | [] => .ok (s, 0)
  | e :: rest =>
    match s.missingEnd? e with
    | some missing => .error (missingEndError e missing)
    | none => do
      let (s', created) := s.addEdge e
      let (s'', more) ← s'.createEdges rest
      return (s'', created + more)

/-- Write one edge, and say whether it is new. -/
def createEdge (s : Store μ) (e : Edge) : Result (Store μ × Bool) :=
  (s.createEdges [e]).map fun r => (r.1, r.2 == 1)

/-! ## 3. The ledger -/

/-- The error for a ledger row without its node. -/
def danglingRowError : Error :=
  .database "FOREIGN KEY constraint failed" (some "Error code 787: Foreign key constraint failed")

/-- Write ledger rows one after the other, a later one replacing an earlier one of the same pair. -/
def record (s : Store μ) : List LedgerRow → Result (Store μ)
  | [] => .ok s
  | row :: rest =>
    if s.contains row.pair.node then
      { s with ledger := s.ledger.insert row.pair row.finish }.record rest
    else .error danglingRowError

/-- Forget which pairs are finished. -/
def resetLedger (s : Store μ) : Store μ := { s with ledger := ∅ }

end Store

end FactGraph
