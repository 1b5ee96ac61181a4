import FactGraph.Resource.Resolver
import FactGraph.Settings

/-!
# Contexts

What analyzers may consult during a run: the settings, and content through a resolver.
-/

namespace FactGraph

/-- The surroundings of a run. -/
structure Context where
  settings : Settings
  files : FileSystem
  resolver : Resolver := Resolver.standard

namespace Context

/-- The pass ceiling. -/
def ceiling (c : Context) : Nat := c.settings.maxPasses

/-- Open a resource. -/
def stream (c : Context) (l : Location) : Result Stream := c.resolver.stream c.files l

/-- Read a whole resource. -/
def read (c : Context) (l : Location) : Result Bytes := c.resolver.read c.files l

/-- The locations directly below a resource. -/
def children (c : Context) (l : Location) : Result (List Location) := c.resolver.children c.files l

/-- Describe a resource. -/
def describe (c : Context) (l : Location) : Result Description := c.resolver.describe c.files l

/-- Read a node's id as a location. -/
def locate (id : String) : Result Location := (Location.parse id).mapError Error.ofLocation

end Context

end FactGraph
