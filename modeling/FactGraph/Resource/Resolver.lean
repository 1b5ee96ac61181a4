import FactGraph.Resource.Archives
import FactGraph.Resource.Files

/-!
# Resolvers

A resolver serves locations by their scheme.  The usual one serves plain files and archive content;
a handler for any other scheme can be registered, and a handler for a scheme that is served already
takes its place.
-/

namespace FactGraph

/-- What serves a scheme. -/
inductive Handler where
  | files
  | archives
  /-- The same bytes at every location, with one child. -/
  | fixed (content : Bytes) (shutdownError : Option String)

namespace Handler

/-- Open a resource. -/
def stream (h : Handler) (fs : FileSystem) (l : Location) : Result Stream :=
  match h with
  | .files => Files.stream fs l
  | .archives => (Archives.stream fs l).fresh
  | .fixed content _ => .ok (.bytes content)

/-- Whether there is a resource. -/
def present (h : Handler) (fs : FileSystem) (l : Location) : Result Bool :=
  match h with
  | .files => Files.present fs l
  | .archives => (Archives.present fs l).fresh
  | .fixed _ _ => .ok true

/-- The locations directly below a resource. -/
def children (h : Handler) (fs : FileSystem) (l : Location) : Result (List Location) :=
  match h with
  | .files => Files.children fs l
  | .archives => (Archives.children fs l).fresh
  | .fixed _ _ => .ok [l.join "child"]

/-- Describe a resource. -/
def describe (h : Handler) (fs : FileSystem) (l : Location) : Result Description :=
  match h with
  | .files => Files.describe fs l
  | .archives => (Archives.describe fs l).fresh
  | .fixed content _ =>
    .ok { size := content.length, modified := none, isDirectory := false, contentType := none }

/-- Release what a handler holds. -/
def shutdown : Handler → Result Unit
  | .fixed _ (some message) => .error (.internal message)
  | _ => .ok ()

end Handler

/-- Handlers by scheme. -/
structure Resolver where
  handlers : Table String Handler := ∅

namespace Resolver

/-- Serve a scheme. -/
def register (r : Resolver) (scheme : String) (h : Handler) : Resolver :=
  ⟨r.handlers.insert (Location.lowercase scheme) h⟩

/-- The resolver of files and archives. -/
def standard : Resolver :=
  (({} : Resolver).register Location.fileScheme .files).register Location.archiveScheme .archives

/-- Whether a scheme is served. -/
def supports (r : Resolver) (scheme : String) : Bool := r.handlers.contains scheme

/-- The handler of a location. -/
def handler (r : Resolver) (l : Location) : Result Handler :=
  match r.handlers.get? l.scheme with
  | some h => .ok h
  | none => .error (.unsupportedScheme l.scheme)

/-- Open a resource. -/
def stream (r : Resolver) (fs : FileSystem) (l : Location) : Result Stream := do
  (← r.handler l).stream fs l

/-- Read a whole resource. -/
def read (r : Resolver) (fs : FileSystem) (l : Location) : Result Bytes := do
  (← r.stream fs l).readAll

/-- Whether there is a resource. -/
def present (r : Resolver) (fs : FileSystem) (l : Location) : Result Bool := do
  (← r.handler l).present fs l

/-- The locations directly below a resource. -/
def children (r : Resolver) (fs : FileSystem) (l : Location) : Result (List Location) := do
  (← r.handler l).children fs l

/-- Describe a resource. -/
def describe (r : Resolver) (fs : FileSystem) (l : Location) : Result Description := do
  (← r.handler l).describe fs l

/-- Release what all handlers hold; every handler is asked, and the first failure counts. -/
def shutdown (r : Resolver) : Result Unit :=
  match r.handlers.values.filterMap fun h => match h.shutdown with
    | .error e => some e
    | .ok () => none with
  | [] => .ok ()
  | e :: _ => .error e

end Resolver

end FactGraph
