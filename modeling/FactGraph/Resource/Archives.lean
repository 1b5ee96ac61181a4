import FactGraph.FileSystem
import FactGraph.Resource

/-!
# Archive content

Resources of the `archive` scheme.  The path names an archive file, each level but the last names an
entry that is itself an archive, and the last level names the resource.  Opened archives are kept in
a cache, and so are the bytes of inner archives; a cache never changes an answer, it only saves work.
-/

namespace FactGraph

namespace Archives

/-! ## 1. The cache -/

/-- What has been opened so far. -/
structure Cache where
  /-- Archive files by path. -/
  files : Table String Archive := ∅
  /-- The bytes of inner archives by location. -/
  taken : Table String Bytes := ∅
  /-- Opened inner archives by location. -/
  inner : Table String Archive := ∅

/-- The number of opened archives. -/
def Cache.size (c : Cache) : Nat := c.files.size + c.inner.size

/-- A computation that uses the cache.  What was opened stays open when a later step fails. -/
abbrev Cached := ExceptT Error (StateM Cache)

/-- A computation with nothing opened before. -/
def Cached.fresh {α : Type} (action : Cached α) : Result α := (action.run {}).1

/-- Lift a plain result. -/
def Cached.ofResult {α : Type} : Result α → Cached α
  | .ok a => pure a
  | .error e => throw e

/-! ## 2. Opening archives -/

/-- An archive that is being entered: a file, or an entry with the given bytes. -/
inductive Source where
  | file (path : String)
  | entry (uri : String) (content : Bytes)

/-- Read an archive file. -/
def readFile (fs : FileSystem) (path : String) : Result Archive :=
  match fs.item? path with
  | .error fault => .error (.io s!"failed to open archive {path}: {fault.message}")
  | .ok (.file content _) => (fs.unzip content).mapError .archive
  | .ok _ => .error (.archive (.unreadable FileSystem.Fault.isDirectory.message))

/-- The archive of a source, from the cache if it is there. -/
def openSource (fs : FileSystem) : Source → Cached Archive
  | .file path => do
    match (← get).files.get? path with
    | some archive => return archive
    | none =>
      let archive ← Cached.ofResult (readFile fs path)
      modify fun c => { c with files := c.files.insert path archive }
      return archive
  | .entry uri content => do
    match (← get).inner.get? uri with
    | some archive => return archive
    | none =>
      let archive ← Cached.ofResult ((fs.unzip content).mapError .archive)
      modify fun c => { c with inner := c.inner.insert uri archive }
      return archive

/-- Open the member of a name; `l` is its location. -/
def openMember (archive : Archive) (name : String) (l : Location) : Result Member :=
  match archive.open? name with
  | .ok m => .ok m
  | .error .missingEntry => .error (.notFound l.uri)
  | .error fault => .error (.archive fault)

/-- The bytes of a member. -/
def contentOf (m : Member) : Result Bytes := m.content.get.mapError .io

/-- Enter the inner archive that is an entry of a source; `l` is its location. -/
def enter (fs : FileSystem) (source : Source) (level : Trail) (l : Location) : Cached Source := do
  match (← get).taken.get? l.uri with
  | some content => return .entry l.uri content
  | none =>
    let archive ← openSource fs source
    let m ← Cached.ofResult (openMember archive level.text l)
    let content ← Cached.ofResult (contentOf m)
    modify fun c => { c with taken := c.taken.insert l.uri content }
    return .entry l.uri content

/-- The innermost archive of a location, and the name of the resource in it. -/
def resolve (fs : FileSystem) (l : Location) : Cached (Archive × String) := do
  if l.scheme ≠ Location.archiveScheme then
    throw (.unsupportedScheme s!"{l.scheme} (archive resolver cannot read {l.uri})")
  let outer := l.levels.dropLast
  let source ← outer.zipIdx.foldlM (fun source (level, depth) =>
    enter fs source level (l.outermost (depth + 1))) (Source.file l.path.text)
  let archive ← openSource fs source
  return (archive, Trail.text (l.levels.getLast?.getD []))

/-! ## 3. What is inside -/

/-- A member's name with forward slashes. -/
def slashed (name : String) : String :=
  String.ofList (name.toList.map fun c => if c = '\\' then '/' else c)

/-- What a name stands for in an archive. -/
inductive Kind where
  | file (size : Nat) (modified : Option Moment)
  | directory (modified : Option Moment)
  | missing

/-- What a name stands for: the top, a member of that name, a member for the directory of that name,
or a directory that only other names imply. -/
def classify (archive : Archive) (name : String) : Kind :=
  if name = "" then .directory none
  else
    match archive.open? name with
    | .ok m => if m.isDirectory then .directory m.modified else .file m.size m.modified
    | .error _ =>
      let folder := name ++ "/"
      match archive.open? folder with
      | .ok m => .directory m.modified
      | .error _ =>
        if archive.names.any fun n => folder.toList.isPrefixOf (slashed n).toList then
          .directory none
        else .missing

/-- The first component of a name below a folder, if it lies there. -/
def firstBelow? (folder : String) (name : String) : Option String :=
  let cs := (slashed name).toList
  if folder.toList.isPrefixOf cs then
    let first := (cs.drop folder.toList.length).takeWhile (· ≠ '/')
    if first = [] then none else some (String.ofList first)
  else none

/-- The names directly below a name, in ascending order. -/
def namesBelow (archive : Archive) (name : String) : List String :=
  let folder := if name = "" then "" else name ++ "/"
  (KeySet.ofMembers (archive.names.filterMap (firstBelow? folder))).members

/-! ## 4. Resources -/

/-- Open an entry. -/
def stream (fs : FileSystem) (l : Location) : Cached Stream := do
  let (archive, name) ← resolve fs l
  if name = "" then
    throw (.invalidLocation s!"{l.uri} is an archive root, not a readable entry")
  let m ← Cached.ofResult (openMember archive name l)
  if m.isDirectory then throw (.invalidLocation s!"{l.uri} is a directory")
  return .bytes (← Cached.ofResult (contentOf m))

/-- Whether there is an entry at a location. -/
def present (fs : FileSystem) (l : Location) : Cached Bool := do
  if !fs.contains l.path.text then return false
  let resolved ← tryCatch (some <$> resolve fs l) fun e =>
    if e.isNotFound then return none else throw e
  match resolved with
  | none => return false
  | some (archive, name) =>
    match classify archive name with
    | .missing => return false
    | _ => return true

/-- The locations directly below an entry, by name. -/
def children (fs : FileSystem) (l : Location) : Cached (List Location) := do
  let (archive, name) ← resolve fs l
  return (namesBelow archive name).map l.join

/-- Describe an entry. -/
def describe (fs : FileSystem) (l : Location) : Cached Description := do
  let (archive, name) ← resolve fs l
  match classify archive name with
  | .file size modified =>
    return { size, modified, isDirectory := false, contentType := l.contentType? }
  | .directory modified => return { size := 0, modified, isDirectory := true, contentType := none }
  | .missing => throw (.notFound l.uri)

end Archives

end FactGraph
