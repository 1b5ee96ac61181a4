/-!
# Diagnostics

What a run found out about its analyzers.  Diagnostics are collected in the report; none of them ends
the run.
-/

namespace FactGraph

/-- The kinds of diagnostics.  The first two are failures, the others warnings. -/
inductive DiagnosticKind where
  | unitError
  | configurationError
  | unresolvedDependency
  | cycleDetected
  | duplicateProducer
  | passCeilingReached
  | cancelled
deriving DecidableEq, Repr

namespace DiagnosticKind

/-- The wording of a kind. -/
def text : DiagnosticKind → String
  | .unitError => "unit error"
  | .configurationError => "configuration error"
  | .unresolvedDependency => "unresolved dependency"
  | .cycleDetected => "cycle detected"
  | .duplicateProducer => "duplicate producer"
  | .passCeilingReached => "pass ceiling reached"
  | .cancelled => "cancelled"

/-- Whether something ran and failed. -/
def isFailure : DiagnosticKind → Bool
  | .unitError | .configurationError => true
  | _ => false

end DiagnosticKind

/-- A finding of a run, about an analyzer or a node or neither. -/
structure Diagnostic where
  kind : DiagnosticKind
  analyzer : Option String := none
  node : Option String := none
  message : String
deriving DecidableEq, Repr

namespace Diagnostic

/-- The full wording of a diagnostic. -/
def text (d : Diagnostic) : String :=
  let about := match d.analyzer with
    | some name => " [" ++ name ++ "]"
    | none => ""
  let place := match d.node with
    | some id => " on " ++ id
    | none => ""
  d.kind.text ++ about ++ place ++ ": " ++ d.message

/-- A dependency of an analyzer that nothing provides. -/
def unresolved (analyzer message : String) : Diagnostic :=
  { kind := .unresolvedDependency, analyzer := some analyzer, message }

/-- An analyzer that failed on a node. -/
def failedOn (analyzer node message : String) : Diagnostic :=
  { kind := .unitError, analyzer := some analyzer, node := some node, message }

/-- An analyzer that could not be set up. -/
def notReady (analyzer message : String) : Diagnostic :=
  { kind := .configurationError, analyzer := some analyzer, message }

end Diagnostic

end FactGraph
