import FactGraph.Resource.Resolver

/-!
# Walks

The four questions that can be asked about a location, and a walk that asks them on the way down.
-/

namespace FactGraph

/-- The questions about a location, answered in `m`. -/
structure Access (m : Type → Type) where
  stream : Location → m (Result Stream)
  present : Location → m (Result Bool)
  children : Location → m (Result (List Location))
  describe : Location → m (Result Description)

namespace Access

variable {m : Type → Type} [Monad m]

/-- Ask a resolver. -/
def ofResolver (r : Resolver) (fs : FileSystem) : Access m where
  stream l := return r.stream fs l
  present l := return r.present fs l
  children l := return r.children fs l
  describe l := return r.describe fs l

/-- Ask the file system. -/
def ofFiles (fs : FileSystem) : Access m where
  stream l := return Files.stream fs l
  present l := return Files.present fs l
  children l := return Files.children fs l
  describe l := return Files.describe fs l

/-- Ask archives, with a cache. -/
def ofArchives (fs : FileSystem) : Access (StateM Archives.Cache) where
  stream l := (Archives.stream fs l).run
  present l := (Archives.present fs l).run
  children l := (Archives.children fs l).run
  describe l := (Archives.describe fs l).run

/-- What a walk meets. -/
inductive Step where
  | found (l : Location) (d : Description)
  | failed (l : Location) (e : Error)
  | notListed (e : Error)

/-- Where the children of a described location are listed: below a directory, or inside an
archive. -/
def inside? (l : Location) (d : Description) : Option Location :=
  if d.isDirectory then some l
  else if l.looksLikeArchive then l.nestedRoot?
  else none

/-- Walk down from a location, `depth` levels deep, parents before children. -/
def walk (a : Access m) : Nat → Location → m (List Step)
  | depth, l => do
    match ← a.describe l with
    | .error e => return [.failed l e]
    | .ok d =>
      match depth, inside? l d with
      | depth + 1, some listed =>
        match ← a.children listed with
        | .error e => return [.found l d, .notListed e]
        | .ok children =>
          let below ← children.mapM (walk a depth)
          return .found l d :: below.flatten
      | _, _ => return [.found l d]

end Access

end FactGraph
