import FactGraph.Analyzer
import FactGraph.Error
import FactGraph.Plan

/-!
# Rosters

The analyzers of a run in registration order, with distinct and non-empty names.
-/

namespace FactGraph

/-- Analyzers in registration order. -/
structure Roster (γ μ : Type) where
  analyzers : List (Analyzer γ μ) := []

namespace Roster

variable {γ μ : Type}

/-- Register one more analyzer. -/
def register (r : Roster γ μ) (a : Analyzer γ μ) : Result (Roster γ μ) :=
  if a.name = "" then .error (.config "unit name must not be empty")
  else if r.analyzers.any (·.name == a.name) then
    .error (.config s!"unit '{a.name}' is registered twice")
  else .ok ⟨r.analyzers ++ [a]⟩

/-- Register analyzers one after the other. -/
def ofList (analyzers : List (Analyzer γ μ)) : Result (Roster γ μ) :=
  analyzers.foldlM register {}

/-- The declarations. -/
def declarations (r : Roster γ μ) : Declarations := r.analyzers.map Analyzer.declaration

/-- The names. -/
def names (r : Roster γ μ) : List String := r.analyzers.map (·.name)

/-- The position of a name. -/
def position? (r : Roster γ μ) (name : String) : Option Nat :=
  r.analyzers.findIdx? (·.name == name)

/-- What an analyzer asks for and nobody offers: tags first, then analyzers. -/
def unresolved (ds : Declarations) (d : Declaration) : List Diagnostic :=
  let missing := d.contract.consumes.members.filter fun tag => (ds.producers tag).isEmpty
  let tags :=
    if missing.isEmpty then []
    else [Diagnostic.unresolved d.name
      ("consumes tags no unit produces: " ++ Split.join ", " missing)]
  let unknown := d.contract.needs.members.filter fun name => (ds.position? name).isNone
  tags ++ unknown.map fun name => Diagnostic.unresolved d.name s!"needs unknown unit '{name}'"

/-- The warning about a tag with several producers. -/
def duplicate? (ds : Declarations) (tag : String) : Option Diagnostic :=
  match ds.producers tag with
  | [] | [_] => none
  | names => some
    { kind := .duplicateProducer
      message := s!"tag '{tag}' is produced by " ++ Split.join ", " names ++
        "; the last registered writer wins" }

/-- The warnings about declarations that do not fit together. -/
def validate (ds : Declarations) : List Diagnostic :=
  let produced := ds.foldl (fun all d => all.union d.contract.produces) (∅ : Names)
  ds.flatMap (unresolved ds) ++ produced.members.filterMap (duplicate? ds)

end Roster

end FactGraph
