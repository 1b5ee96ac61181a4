import FactGraph.Table

/-!
# Contracts

An analyzer declares what it consumes, what it produces and which analyzers come before it.  The
declarations decide the order of work and when the analyzer applies to a node; nothing else about an
analyzer matters for either.
-/

namespace FactGraph

/-- What an analyzer declares. -/
structure Contract where
  /-- Tags that a node must all have before the analyzer applies. -/
  consumes : Names := ∅
  /-- Tags that the analyzer may add. -/
  produces : Names := ∅
  /-- Analyzers that come before this one. -/
  needs : Names := ∅

namespace Contract

/-- Whether the analyzer applies to nodes without any tag. -/
def isCollector (c : Contract) : Bool := c.consumes.isEmpty

end Contract

/-- A named contract. -/
structure Declaration where
  name : String
  contract : Contract

/-- Why one analyzer comes before another. -/
inductive Reason where
  /-- The first produces a tag that the second consumes. -/
  | tag (name : String)
  /-- The second needs the first. -/
  | need
deriving DecidableEq, Repr

/-- A dependency between two positions: what stands at `source` comes before what stands at
`target`. -/
structure Link where
  source : Nat
  target : Nat
  reason : Reason
deriving DecidableEq, Repr

/-- Declarations in registration order; an analyzer is referred to by its position. -/
abbrev Declarations := List Declaration

namespace Declarations

/-- The position of the first declaration of a name. -/
def position? (ds : Declarations) (name : String) : Option Nat :=
  ds.findIdx? (·.name == name)

/-- Whether the declaration at a position produces a tag. -/
def producesAt (ds : Declarations) (i : Nat) (tag : String) : Bool :=
  ds[i]?.any (·.contract.produces.contains tag)

/-- Whether the declaration at a position consumes a tag. -/
def consumesAt (ds : Declarations) (i : Nat) (tag : String) : Bool :=
  ds[i]?.any (·.contract.consumes.contains tag)

/-- The names of the producers of a tag, in registration order. -/
def producers (ds : Declarations) (tag : String) : List String :=
  (ds.filter (·.contract.produces.contains tag)).map (·.name)

/-- The names at some positions. -/
def namesAt (ds : Declarations) (positions : List Nat) : List String :=
  positions.filterMap fun i => ds[i]?.map (·.name)

/-- The positions of the producers of a tag, in registration order. -/
def suppliers (ds : Declarations) (tag : String) : List Nat :=
  (List.range ds.length).filter fun i => ds.producesAt i tag

/-- All dependencies.  They stand in the order of the dependent analyzers, for each of them first
those through the tags that it consumes, then those through the names that it needs.  A need that
nobody is declared under links nothing. -/
def links (ds : Declarations) : List Link :=
  ds.zipIdx.flatMap fun entry =>
    (entry.1.contract.consumes.members.flatMap fun tag =>
      (ds.suppliers tag).map fun i => ⟨i, entry.2, .tag tag⟩) ++
    entry.1.contract.needs.members.filterMap fun name =>
      (ds.position? name).map fun i => ⟨i, entry.2, .need⟩

/-- The names that the analyzer of a given name depends on directly, in ascending order. -/
def dependencies (ds : Declarations) (name : String) : List String :=
  match ds.position? name with
  | none => []
  | some j =>
    let incoming := ds.links.filter fun link => link.target == j
    (KeySet.ofMembers (ds.namesAt (incoming.map (·.source)))).members

end Declarations

end FactGraph
