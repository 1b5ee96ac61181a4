import FactGraph.Store.Reading

/-!
# Sessions

During a run the store is only reached through calls, and any call may fail.  A call that fails does
nothing.  What was written before a failure stays written: the state survives the error.

What fails is a matter of storage (`Session.Faults`).  A call may fail by itself, or because of the
nodes that it has to read back.  A disk that is in order fails only for those
(`Session.Faults.readBack`).
-/

namespace FactGraph

namespace Session

/-- The storage calls of a run. -/
inductive Call where
  | completedRuns
  | allNodes
  | factCount
  | findNode
  | containsNode
  | mergeNodes
  | createEdges
  | recordRuns
  | findByTag
deriving DecidableEq, Repr

/-- When storage fails: the error of the `n`-th call of a kind, counted from one, which has to read
some nodes. -/
abbrev Faults (μ : Type) := Call → Nat → List (Node μ) → Option Error

/-- Storage that never fails. -/
def Faults.none {μ : Type} : Faults μ := fun _ _ _ => .none

/-- Storage in order: a call fails only for a node that it cannot read back. -/
def Faults.readBack {μ : Type} : Faults μ := fun call _ nodes =>
  match call with
  | .factCount => Node.uncounted? nodes
  | _ => Node.refused? nodes

/-- The state of a session. -/
structure State (μ : Type) where
  store : Store μ
  faults : Faults μ := Faults.none
  /-- How often each call was made. -/
  counts : List (Call × Nat) := []
  /-- Whether an analyzer has asked the run to stop. -/
  cancelled : Bool := false

/-- How often a call was made. -/
def countOf (counts : List (Call × Nat)) (call : Call) : Nat := (counts.lookup call).getD 0

/-- Count one more call. -/
def bump (counts : List (Call × Nat)) (call : Call) : List (Call × Nat) :=
  (call, countOf counts call + 1) :: counts.filter (·.1 ≠ call)

end Session

/-- A computation that talks to storage. -/
abbrev Session (μ : Type) := ExceptT Error (StateM (Session.State μ))

namespace Session

variable {μ α : Type}

/-- Make a call: count it, and do its work unless storage fails.  `reads` are the nodes that it has to
read. -/
def call (c : Call) (reads : Store μ → List (Node μ)) (work : Store μ → Result (Store μ × α)) :
    Session μ α := do
  let s ← get
  let n := countOf s.counts c + 1
  set { s with counts := bump s.counts c }
  match s.faults c n (reads s.store) with
  | some e => throw e
  | none =>
    match work s.store with
    | .ok (store, a) =>
      modify fun s => { s with store }
      return a
    | .error e => throw e

/-- A call that only reads. -/
def read (c : Call) (reads : Store μ → List (Node μ)) (query : Store μ → α) : Session μ α :=
  call c reads fun s => .ok (s, query s)

/-- A call that only writes. -/
def write (c : Call) (work : Store μ → Result (Store μ × α)) : Session μ α :=
  call c (fun _ => []) work

/-- The finished pairs of the ledger. -/
def completedRuns : Session μ (KeySet Pair) :=
  read .completedRuns (fun _ => []) fun s => s.ledger.mapValues fun _ _ => ()

/-- All nodes by id. -/
def allNodes : Session μ (List (Node μ)) := read .allNodes Store.allNodes Store.allNodes

/-- The number of facts. -/
def factCount : Session μ Nat := read .factCount Store.allNodes Store.factCount

/-- The node of an id. -/
def findNode (id : String) : Session μ (Option (Node μ)) :=
  read .findNode (fun s => (s.node? id).toList) (·.node? id)

/-- Whether a node is stored. -/
def containsNode (id : String) : Session μ Bool :=
  read .containsNode (fun _ => []) (·.contains id)

/-- The nodes with a tag. -/
def findByTag (tag : String) : Session μ (List (Node μ)) :=
  read .findByTag (·.nodesWithTag tag) (·.nodesWithTag tag)

/-- Write a batch of nodes; the answer is its size. -/
def mergeNodes [Measure μ] (batch : List (Node μ)) : Session μ Nat :=
  write .mergeNodes fun s => .ok (s.mergeNodes batch, batch.length)

/-- Write a batch of edges; the answer is the number of new ones. -/
def createEdges (batch : List Edge) : Session μ Nat :=
  write .createEdges fun s => s.createEdges batch

/-- Write ledger rows; the answer is their number. -/
def recordRuns (rows : List LedgerRow) : Session μ Nat :=
  write .recordRuns fun s => (s.record rows).map fun s => (s, rows.length)

/-- Note that a run is asked to stop. -/
def cancel : Session μ Unit := modify fun s => { s with cancelled := true }

/-- Whether a run has been asked to stop. -/
def isCancelled : Session μ Bool := return (← get).cancelled

end Session

end FactGraph
