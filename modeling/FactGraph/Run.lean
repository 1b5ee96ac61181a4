import FactGraph.Commit
import FactGraph.Roster

/-!
# Runs

A run repeats passes.  A pass takes a snapshot of the nodes, evaluates every pending pair against it,
and commits what was found.  A pair is pending while it has not finished; it is put off while its node
lacks a consumed tag or the analyzer does not support it yet.  The run stops

* when nothing is pending,
* when a pass added no fact,
* when the ceiling is reached, or
* when it is asked to stop, which is looked at between passes only.

The number of passes is bounded by the ceiling, so the loop recurses on the passes that are left.
-/

namespace FactGraph

/-! ## 1. Reports -/

/-- Why a run stopped. -/
inductive StopReason where
  | converged
  | noProgress
  | passCeiling
  | cancelled
deriving DecidableEq, Repr

namespace StopReason

/-- The wording of a reason. -/
def text : StopReason → String
  | .converged => "converged"
  | .noProgress => "no progress"
  | .passCeiling => "pass ceiling reached"
  | .cancelled => "cancelled"

/-- Whether the run stopped because there was nothing more to find. -/
def isFixedPoint : StopReason → Bool
  | .converged | .noProgress => true
  | _ => false

end StopReason

/-- What happened in a pass. -/
structure PassSummary where
  pass : Nat
  factsBefore : Nat
  factsAfter : Nat
  ran : Nat
  skipped : Nat
  failed : Nat
  deferred : Nat
  commit : CommitSummary
deriving DecidableEq, Repr

/-- An analyzer that never ran because no node has some of its tags. -/
structure Unresolved where
  analyzer : String
  missing : List String
deriving DecidableEq, Repr

/-- What happened in a run. -/
structure Report where
  passes : List PassSummary
  stop : StopReason
  diagnostics : List Diagnostic
  order : List String
  unresolved : List Unresolved
deriving DecidableEq, Repr

namespace Report

/-- The failures among the diagnostics. -/
def failures (r : Report) : List Diagnostic := r.diagnostics.filter (·.kind.isFailure)

/-- The warnings among the diagnostics. -/
def warnings (r : Report) : List Diagnostic := r.diagnostics.filter (!·.kind.isFailure)

/-- The number of facts that the run added. -/
def factsAdded (r : Report) : Nat :=
  match r.passes.head?, r.passes.getLast? with
  | some first, some last => last.factsAfter - first.factsBefore
  | _, _ => 0

end Report

/-- The bounds of a run. -/
structure Limits where
  maxPasses : Nat
  batchSize : Nat
  /-- Analyzers that take no part. -/
  disabled : List String := []
deriving DecidableEq, Repr

namespace Run

variable {γ μ : Type}

/-! ## 2. Activation -/

/-- An analyzer that takes part in a run. -/
structure Active (γ μ : Type) where
  position : Nat
  analyzer : Analyzer γ μ

/-- Set up the analyzers in the order of the plan.  Those that cannot be set up stay out and are
reported. -/
def activate (roster : Roster γ μ) (context : γ) (limits : Limits) (order : List Nat) :
    List (Active γ μ) × List Diagnostic :=
  let outcomes := order.filterMap fun position => do
    let a ← roster.analyzers[position]?
    if limits.disabled.contains a.name then none
    else
      match a.setup context with
      | .ok () => some (Sum.inl (⟨position, a⟩ : Active γ μ))
      | .error message => some (Sum.inr (Diagnostic.notReady a.name message))
  (outcomes.filterMap fun o => o.getLeft?, outcomes.filterMap fun o => o.getRight?)

/-! ## 3. Evaluation -/

/-- A pair that is to be evaluated. -/
structure Task (γ μ : Type) where
  active : Active γ μ
  node : Node μ

/-- The identity of a task. -/
def Task.pair (t : Task γ μ) : Pair := ⟨t.active.analyzer.name, t.node.id⟩

/-- The pending pairs: for each analyzer in order, the targeted nodes by id that it has not finished. -/
def pending (active : List (Active γ μ)) (snapshot : List (Node μ)) (completed : KeySet Pair) :
    List (Task γ μ) :=
  active.flatMap fun a =>
    (snapshot.filter fun n =>
      a.analyzer.targetsKind n.kind && !completed.contains ⟨a.analyzer.name, n.id⟩).map (⟨a, ·⟩)

/-- The result of evaluating a pair. -/
inductive Evaluation (μ : Type) where
  | deferred
  | finished (completion : Completion μ) (cancels : Bool)

/-- A task that finished. -/
def Task.finish (t : Task γ μ) (outcome : Outcome) (findings : Findings μ)
    (message : Option String) : Completion μ :=
  ⟨t.active.position, t.pair, outcome, findings, message⟩

/-- A task that failed: all it found is dropped. -/
def Task.fail (t : Task γ μ) (message : String) : Completion μ :=
  t.finish .failed (Findings.failure t.active.analyzer.name t.node.id message) (some message)

/-- The completion of an inspected task. -/
def Task.conclude (t : Task γ μ) (result : Inspection μ) : Completion μ :=
  match result.verdict with
  | .done =>
    if result.findings.errors.isEmpty then t.finish .ran result.findings none
    else t.finish .failed result.findings (some (Split.join "; " result.findings.errors))
  | .notApplicable => t.finish .skipped {} none
  | .failed message => t.fail message
  | .crashed message => t.fail ("panicked: " ++ message)

/-- Evaluate a pair. -/
def evaluate (context : γ) (t : Task γ μ) : Evaluation μ :=
  let a := t.active.analyzer
  if !t.node.hasAllTags a.contract.consumes.members then .deferred
  else
    match a.supports t.node with
    | .error message => .finished (t.fail ("panicked in supports: " ++ message)) false
    | .ok false => .deferred
    | .ok true =>
      let result := a.inspect context t.node
      .finished (t.conclude result) result.cancels

namespace Evaluation

/-- The completion of a pair that was not put off. -/
def completion? : Evaluation μ → Option (Completion μ)
  | .finished c _ => some c
  | .deferred => none

/-- Whether the pair was put off. -/
def isDeferred : Evaluation μ → Bool
  | .deferred => true
  | _ => false

/-- Whether the run was asked to stop. -/
def cancels : Evaluation μ → Bool
  | .finished _ cancels => cancels
  | .deferred => false

end Evaluation

/-- The diagnostic of a failed pair. -/
def failureOf? (c : Completion μ) : Option Diagnostic :=
  match c.outcome with
  | .failed => some (Diagnostic.failedOn c.pair.analyzer c.pair.node (c.message.getD ""))
  | _ => none

/-- The number of completions with an outcome. -/
def countOutcome (completions : List (Completion μ)) (outcome : Outcome) : Nat :=
  (completions.filter (·.outcome = outcome)).length

/-! ## 4. Passes -/

/-- Where a run stands between two passes. -/
structure Progress where
  completed : KeySet Pair
  /-- Summaries of the passes so far, last first. -/
  passes : List PassSummary := []
  diagnostics : List Diagnostic

/-- Evaluate the pending pairs and commit what they found. -/
def onePass [Measure μ] (context : γ) (limits : Limits) (p : Progress) (tasks : List (Task γ μ)) :
    Session μ (Progress × PassSummary) := do
  let number := p.passes.length + 1
  let factsBefore ← Session.factCount
  let evaluations := tasks.map (evaluate context)
  if evaluations.any Evaluation.cancels then Session.cancel
  let completions := evaluations.filterMap Evaluation.completion?
  let commit ← Commit.pass completions number limits.batchSize
  let factsAfter ← Session.factCount
  let summary : PassSummary :=
    { pass := number, factsBefore, factsAfter, commit
      ran := countOutcome completions .ran
      skipped := countOutcome completions .skipped
      failed := countOutcome completions .failed
      deferred := (evaluations.filter Evaluation.isDeferred).length }
  return ({ completed := completions.foldl (fun done c => done.add c.pair) p.completed
            passes := summary :: p.passes
            diagnostics := p.diagnostics ++ completions.filterMap failureOf? }, summary)

/-- The warning of a run that was asked to stop. -/
def cancelledDiagnostic (passes : Nat) : Diagnostic :=
  { kind := .cancelled, message := s!"run cancelled after {passes} passes" }

/-- The warning of a run that reached its ceiling. -/
def ceilingDiagnostic (ceiling pairs : Nat) : Diagnostic :=
  { kind := .passCeilingReached, message := s!"stopped after {ceiling} passes with {pairs} pairs pending" }

/-- Add a diagnostic. -/
def Progress.note (p : Progress) (d : Diagnostic) : Progress :=
  { p with diagnostics := p.diagnostics ++ [d] }

/-- Repeat passes, at most `left` of them.  `stop` is asked between passes whether the run is to stop
from outside. -/
def loop [Measure μ] (active : List (Active γ μ)) (context : γ) (limits : Limits)
    (stop : Nat → Bool) (left : Nat) (p : Progress) : Session μ (Progress × StopReason) := do
  if stop p.passes.length then Session.cancel
  if ← Session.isCancelled then
    return (p.note (cancelledDiagnostic p.passes.length), .cancelled)
  let snapshot ← Session.allNodes
  let tasks := pending active snapshot p.completed
  if tasks.isEmpty then return (p, .converged)
  match left with
  | 0 => return (p.note (ceilingDiagnostic limits.maxPasses tasks.length), .passCeiling)
  | left + 1 =>
    let (p, summary) ← onePass context limits p tasks
    if summary.factsAfter = summary.factsBefore then return (p, .noProgress)
    else loop active context limits stop left p
termination_by left

/-! ## 5. Runs -/

/-- What an analyzer waited for in vain: those consumed tags that no node has. -/
def missingTags (a : Active γ μ) : Session μ (List String) :=
  a.analyzer.contract.consumes.members.filterM fun tag => return (← Session.findByTag tag).isEmpty

/-- The analyzers that never ran because some of their tags never appeared. -/
def unresolved (active : List (Active γ μ)) (completed : KeySet Pair) :
    Session μ (List Unresolved) := do
  let idle := active.filter fun a =>
    !a.analyzer.contract.isCollector && !completed.keys.any (·.analyzer == a.analyzer.name)
  let entries ← idle.mapM fun a => return ⟨a.analyzer.name, ← missingTags a⟩
  return entries.filter fun u => !u.missing.isEmpty

/-- The warning about an analyzer that never ran. -/
def Unresolved.diagnostic (u : Unresolved) : Diagnostic :=
  Diagnostic.unresolved u.analyzer ("never ran; no entity carries " ++ Split.join ", " u.missing)

end Run

/-- Run all analyzers of a roster until there is nothing more to find. -/
def run {γ μ : Type} [Measure μ] (roster : Roster γ μ) (context : γ) (limits : Limits)
    (stop : Nat → Bool) : Session μ Report := do
  let declarations := roster.declarations
  let plan := Plan.ofDeclarations declarations
  let (active, notReady) := Run.activate roster context limits plan.order
  let completed ← Session.completedRuns
  let start : Run.Progress :=
    { completed, diagnostics := Roster.validate declarations ++ plan.diagnostics ++ notReady }
  let (final, reason) ← Run.loop active context limits stop limits.maxPasses start
  let unresolved ← Run.unresolved active final.completed
  return {
    passes := final.passes.reverse
    stop := reason
    diagnostics := final.diagnostics ++ unresolved.map Run.Unresolved.diagnostic
    order := active.map (·.analyzer.name)
    unresolved }

end FactGraph
