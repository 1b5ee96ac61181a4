import FactGraph.Findings
import FactGraph.Session

/-!
# Committing a pass

The results of a pass are written in one fixed order, whatever order they were found in: by the
analyzer's position, then by the node.  Nodes are folded in memory first and then written in batches,
then the edges whose ends exist, then the ledger.  The ledger comes last, so that a pair only counts
as finished when all it found is stored.
-/

namespace FactGraph

/-- A finished pair with what it found. -/
structure Completion (μ : Type) where
  /-- The analyzer's registration position. -/
  position : Nat
  pair : Pair
  outcome : Outcome
  findings : Findings μ
  message : Option String

/-- What a commit did. -/
structure CommitSummary where
  nodesWritten : Nat := 0
  batchesCommitted : Nat := 0
  edgesCreated : Nat := 0
  edgesDropped : Nat := 0
  runsRecorded : Nat := 0
  targetsMissing : Nat := 0
  idleRuns : Nat := 0
deriving DecidableEq, Repr

namespace Commit

variable {μ : Type}

/-! ## 1. Order -/

/-- The order of writing: by position, then by node. -/
def before (a b : Completion μ) : Bool :=
  a.position < b.position || (a.position == b.position && a.pair.node ≤ b.pair.node)

/-- Cut a list into batches; a size of zero counts as one. -/
def batches {α : Type} (size : Nat) : List α → List (List α)
  | [] => []
  | x :: rest => (x :: rest.take (size - 1)) :: batches size (rest.drop (size - 1))
termination_by xs => xs.length
decreasing_by
  rw [List.length_drop, List.length_cons]
  omega

/-! ## 2. Folding nodes -/

/-- Nodes being folded, not yet written. -/
structure Staging (μ : Type) where
  nodes : Table String (Node μ) := ∅
  missing : Nat := 0

/-- A node as it stands: folded already, or stored. -/
def current (staged : Staging μ) (id : String) : Session μ (Option (Node μ)) :=
  match staged.nodes.get? id with
  | some n => return some n
  | none => Session.findNode id

/-- Fold a node that was seen. -/
def stageObserved (staged : Staging μ) (seen : Node μ) : Session μ (Staging μ) := do
  match ← current staged seen.id with
  | some n => return { staged with nodes := staged.nodes.insert seen.id (n.absorb seen) }
  | none => return { staged with nodes := staged.nodes.insert seen.id seen }

/-- Fold a patch; a patch for a node that does not exist is dropped and counted. -/
def stagePatch [Measure μ] (staged : Staging μ) (target : String × Patch μ) :
    Session μ (Staging μ) := do
  match ← current staged target.1 with
  | some n => return { staged with nodes := staged.nodes.insert target.1 (target.2.apply n) }
  | none => return { staged with missing := staged.missing + 1 }

/-- Fold everything that one completion found out about nodes. -/
def stage [Measure μ] (staged : Staging μ) (c : Completion μ) : Session μ (Staging μ) := do
  let staged ← c.findings.observed.foldlM stageObserved staged
  c.findings.patches.rows.foldlM stagePatch staged

/-! ## 3. Writing -/

/-- The ledger row of a completion. -/
def ledgerRow (pass : Nat) (c : Completion μ) : LedgerRow :=
  ⟨c.pair, ⟨c.outcome, pass, c.message⟩⟩

/-- Whether both ends of an edge are stored; the target is only asked for when the source is. -/
def isLive (e : Edge) : Session μ Bool := do
  if ← Session.containsNode e.source then Session.containsNode e.target else return false

/-- The edges whose ends are stored, and the number of the others. -/
def liveEdges (edges : List Edge) : Session μ (List Edge × Nat) := do
  let (live, dropped) ← edges.foldlM (fun (live, dropped) e => do
    if ← isLive e then return (e :: live, dropped) else return (live, dropped + 1)) ([], 0)
  return (live.reverse, dropped)

/-- Write all batches, adding up the answers. -/
def writeBatches {α : Type} (write : List α → Session μ Nat) (parts : List (List α)) :
    Session μ Nat :=
  parts.foldlM (fun total part => return total + (← write part)) 0

/-- Write the results of a pass. -/
def pass [Measure μ] (results : List (Completion μ)) (number batchSize : Nat) :
    Session μ CommitSummary := do
  let ordered := results.mergeSort before
  let staged ← ordered.foldlM stage {}
  let nodeBatches := batches batchSize staged.nodes.values
  let nodesWritten ← writeBatches Session.mergeNodes nodeBatches
  let (live, edgesDropped) ← liveEdges (ordered.flatMap (·.findings.edges))
  let edgeBatches := batches batchSize live
  let edgesCreated ← writeBatches Session.createEdges edgeBatches
  let runsRecorded ← Session.recordRuns (ordered.map (ledgerRow number))
  return {
    nodesWritten, edgesDropped, edgesCreated, runsRecorded
    batchesCommitted := nodeBatches.length + edgeBatches.length
    targetsMissing := staged.missing
    idleRuns := (ordered.filter (·.findings.isEmpty)).length }

end Commit

end FactGraph
