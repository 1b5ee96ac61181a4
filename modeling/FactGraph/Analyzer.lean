import FactGraph.Contract
import FactGraph.Findings

/-!
# Analyzers

An analyzer looks at one node at a time and reports what it finds.  It may turn out not to apply, it
may fail, and it may crash; a crash is contained and reported like a failure.  `γ` is what analyzers
may consult during a run.
-/

namespace FactGraph

/-- How an inspection ends. -/
inductive Verdict where
  | done
  | notApplicable
  | failed (message : String)
  | crashed (message : String)
deriving DecidableEq, Repr

/-- The result of inspecting a node. -/
structure Inspection (μ : Type) where
  findings : Findings μ
  verdict : Verdict
  /-- Whether the run is asked to stop at the next pass boundary. -/
  cancels : Bool := false

/-- Something that looks at nodes. -/
structure Analyzer (γ μ : Type) where
  name : String
  contract : Contract := {}
  /-- The kinds of nodes that are looked at; all kinds if empty. -/
  targets : List String := []
  /-- Get ready for a run, or say why not. -/
  setup : γ → Except String Unit := fun _ => .ok ()
  /-- Whether a node can be inspected; an error is a crash. -/
  supports : Node μ → Except String Bool := fun _ => .ok true
  inspect : γ → Node μ → Inspection μ

namespace Analyzer

variable {γ μ : Type}

/-- Whether nodes of a kind are looked at. -/
def targetsKind (a : Analyzer γ μ) (kind : String) : Bool :=
  a.targets.isEmpty || a.targets.contains kind

/-- The declaration of an analyzer. -/
def declaration (a : Analyzer γ μ) : Declaration := ⟨a.name, a.contract⟩

end Analyzer

end FactGraph
