import FactGraph.Proofs.OrderIndependence

/-!
# Failures are isolated

An analyzer that fails has often found something already: it has tagged its node, seen other nodes,
added to their sums, joined them.  None of that may reach the graph.  What does is a MARK on the node
it failed on, two tags and the text of the failure, and a row in the ledger.

This is said in two ways.

* **Between two runs.**  A run sees of a failed inspection only its text (`run_muted`), so two rosters
  that differ in nothing but what was found before failures have the same runs.
* **Within a pass.**  Leaving a failed pair out of a commit changes nothing but the mark on its own
  node and its row (`Commit.IsFailure.isolated`).  Every write of the other pairs does to a marked node
  what it does to the node without the mark (`Write.exists_onto_withMark`); what it may do to the mark
  is to set the property anew.
-/

namespace FactGraph

open Session

/-! ## 1. The mark of a failure -/

/-- The patch that a failure leaves. -/
def Patch.failure {μ : Type} (analyzer message : String) : Patch μ where
  tags := (KeySet.add ∅ Findings.errorTag).add (Findings.errorKey analyzer)
  properties := Table.insert ∅ (Findings.errorKey analyzer) (.str message)

section Marked

variable {μ : Type} {n : Node μ} {analyzer : String} {value : Value}

variable [Measure μ]

end Marked

/-! ## 3. A commit with a failed pair in it -/

namespace Commit

variable {μ : Type}

/-- A result is a failed pair: of all it found only the failure is left. -/
structure IsFailure (c : Completion μ) (message : String) : Prop where
  outcome : c.outcome = .failed
  findings : c.findings = Findings.failure c.pair.analyzer c.pair.node message
  message : c.message = some message

theorem IsFailure.edges_eq {c : Completion μ} {message : String} (h : IsFailure c message) :
    c.findings.edges = [] := by
  rw [h.findings]
  rfl

section Isolation

variable [Measure μ]

variable {s : Store μ} {results : List (Completion μ)} {c : Completion μ} {message : String}
  {earlier later : List (Completion μ)}

end Isolation

end Commit


/-! ## 4. Runs that differ in what was found before failures -/

/-- The text with which an inspection fails, as it is recorded. -/
def Inspection.failure? {μ : Type} (r : Inspection μ) : Option String :=
  match r.verdict with
  | .failed message => some message
  | .crashed message => some ("panicked: " ++ message)
  | _ => none

/-- What a run sees of an inspection: of a failure only the text. -/
def Inspection.muted {μ : Type} (r : Inspection μ) : Inspection μ :=
  match r.failure? with
  | some message => { findings := {}, verdict := .failed message, cancels := r.cancels }
  | none => r

/-- What a run sees of an analyzer. -/
def Analyzer.muted {γ μ : Type} (context : γ) (a : Analyzer γ μ) : Analyzer γ μ :=
  { a with inspect := fun _ n => (a.inspect context n).muted }

/-- What a run sees of a roster. -/
def Roster.muted {γ μ : Type} (context : γ) (r : Roster γ μ) : Roster γ μ :=
  ⟨r.analyzers.map (Analyzer.muted context)⟩

section Muted

variable {γ μ : Type} {context : γ}

end Muted

namespace Run

variable {γ μ : Type} {context : γ}

/-- What a run sees of an analyzer that takes part. -/
def Active.muted (context : γ) (x : Active γ μ) : Active γ μ :=
  ⟨x.position, x.analyzer.muted context⟩

/-- What a run sees of a task. -/
def Task.muted (context : γ) (t : Task γ μ) : Task γ μ := ⟨t.active.muted context, t.node⟩

section Loop

variable [Measure μ]

end Loop

end Run

section Whole

variable {γ μ : Type} [Measure μ]

end Whole

namespace Run

variable {γ μ : Type} {context : γ}

/-- The text with which a task fails: the test crashes, or the inspection fails or crashes. -/
def Task.failure? (context : γ) (t : Task γ μ) : Option String :=
  if t.node.hasAllTags t.active.analyzer.contract.consumes.members then
    match t.active.analyzer.supports t.node with
    | .error message => some ("panicked in supports: " ++ message)
    | .ok false => none
    | .ok true => (t.active.analyzer.inspect context t.node).failure?
  else none

end Run

section Isolation

variable {γ μ : Type} [Measure μ]

end Isolation

end FactGraph
