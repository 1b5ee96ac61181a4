import FactGraph.Path
import FactGraph.Text.Percent

/-!
# Locations

A location says where content lives: in a file, in an archive file, or in an archive that is itself
an entry of an archive, and so on.  Its URI is `scheme:path`, and for content of archives
`scheme:path!/level!/level…`: one level for each archive that is entered, the last one possibly
empty, which addresses the top of that archive.

A location is kept as what the URI says (a scheme, a path, the levels as names) and not as text:
its parts are in normal form by construction, and the URI is computed from them.
-/

namespace FactGraph

/-- The place inside an archive: the entries through which inner archives are reached, outermost
first, and the place inside the innermost archive. -/
structure Entry where
  outer : List Trail
  inner : Trail
deriving DecidableEq, Repr

namespace Entry

/-- The top of an archive. -/
def top : Entry := ⟨[], []⟩

/-- All levels, outermost first. -/
def levels (e : Entry) : List Trail := e.outer ++ [e.inner]

/-- The entry with the given levels. -/
def ofLevels (levels : List Trail) : Entry := ⟨levels.dropLast, levels.getLast?.getD []⟩

/-- Read an entry from the text after the first `!/` of a URI.  Levels that lead nowhere are
dropped, except the last. -/
def ofText (text : String) : Entry :=
  let levels := (Split.piecesAtPair '!' '/' text.toList).map fun level =>
    Trail.ofText (Percent.unescape (String.ofList level))
  let e := ofLevels levels
  ⟨e.outer.filter (· ≠ []), e.inner⟩

/-- A level as it stands in a URI. -/
def levelText (level : Trail) : String := Percent.escape level.text

/-- The entry as it stands in a URI. -/
def text (e : Entry) : String := Split.join "!/" (e.levels.map levelText)

end Entry

/-- Where content lives. -/
structure Location where
  scheme : String
  path : Path
  entry : Option Entry
deriving DecidableEq, Repr

namespace Location

/-! ## 1. Building locations -/

/-- Why a text is no location. -/
inductive Fault where
  | invalidScheme (scheme : String)
  | emptyPath
  | entryOnFile (entry : String)
  | missingScheme (uri : String)
deriving DecidableEq, Repr

/-- The wording of a fault. -/
def Fault.message : Fault → String
  | .invalidScheme scheme => s!"invalid scheme '{scheme}'"
  | .emptyPath => "empty path"
  | .entryOnFile entry => s!"file locations cannot carry an entry path: '{entry}'"
  | .missingScheme uri => s!"missing scheme in '{uri}'"

/-- The scheme of plain files. -/
def fileScheme : String := "file"

/-- The scheme of archive content. -/
def archiveScheme : String := "archive"

/-- Lower-case the ASCII letters of a text. -/
def lowercase (text : String) : String := String.ofList (text.toList.map Char.toLower)

/-- A scheme starts with an ASCII letter and goes on with letters, digits, `+`, `-` and `.`. -/
def validScheme (scheme : String) : Bool :=
  match scheme.toList with
  | [] => false
  | c :: rest => c.isAlpha && rest.all fun c => c.isAlphanum || c = '+' || c = '-' || c = '.'

/-- The location of a plain file. -/
def file (path : String) : Location := ⟨fileScheme, Path.ofText path, none⟩

/-- The location of an entry of an archive file. -/
def archive (path entry : String) : Location :=
  ⟨archiveScheme, Path.ofText path, some (Entry.ofText entry)⟩

/-- A location from its parts.  Files have no entry and archives always have one. -/
def ofParts (scheme path : String) (entry : Option String) : Except Fault Location :=
  let scheme := lowercase scheme
  if !validScheme scheme then .error (.invalidScheme scheme)
  else if path = "" then .error .emptyPath
  else if scheme = fileScheme then
    match entry with
    | some entry => .error (.entryOnFile entry)
    | none => .ok ⟨scheme, Path.ofText path, none⟩
  else if scheme = archiveScheme then
    .ok ⟨scheme, Path.ofText path, some (Entry.ofText (entry.getD ""))⟩
  else
    .ok ⟨scheme, Path.ofText path, entry.map Entry.ofText⟩

/-- What follows the scheme, without the `//` in front of an absolute path. -/
def stripAuthority : List Char → List Char
  | '/' :: '/' :: '/' :: rest => '/' :: rest
  | rest => rest

/-- Read a URI.  Its scheme has at least two characters, so that a drive letter is none. -/
def parse (uri : String) : Except Fault Location :=
  match Split.first ':' uri.toList with
  | none => .error (.missingScheme uri)
  | some (scheme, rest) =>
    if Utf8.length (String.ofList scheme) ≤ 1 then .error (.missingScheme uri)
    else
      let rest := stripAuthority rest
      match Split.firstPair '!' '/' rest with
      | some (path, entry) =>
        ofParts (String.ofList scheme) (Percent.unescape (String.ofList path))
          (some (String.ofList entry))
      | none => ofParts (String.ofList scheme) (Percent.unescape (String.ofList rest)) none

/-! ## 2. Views -/

/-- The URI. -/
def uri (l : Location) : String :=
  let outer := l.scheme ++ ":" ++ Percent.escape l.path.text
  match l.entry with
  | some e => outer ++ "!/" ++ e.text
  | none => outer

/-- The levels of the entry, outermost first; none for plain files. -/
def levels (l : Location) : List Trail :=
  match l.entry with
  | some e => e.levels
  | none => []

/-- The path of a plain file. -/
def filePath? (l : Location) : Option String :=
  if l.scheme = fileScheme then some l.path.text else none

/-- Whether the location is the top of an archive. -/
def isArchiveRoot (l : Location) : Bool :=
  l.scheme = archiveScheme &&
    match l.entry with
    | some e => e.inner = []
    | none => false

/-- The innermost name; the top of an archive is named like the archive. -/
def fileName (l : Location) : String :=
  match l.levels.reverse.find? (· ≠ []) with
  | some (name :: _) => name
  | _ => l.path.lastName.getD l.path.text

/-- The lower-case extension of a name: what follows its last dot, unless that or what stands before
it is empty. -/
def extensionOf (name : String) : Option String :=
  match Split.last '.' name.toList with
  | some (stem, ext) =>
    if stem = [] ∨ ext = [] then none else some (lowercase (String.ofList ext))
  | none => none

/-- The extension of the innermost name. -/
def extension? (l : Location) : Option String := extensionOf l.fileName

/-- The extensions of the zip family. -/
def archiveExtensions : List String := ["zip", "jar", "war", "ear"]

/-- Whether the name marks the resource as an archive. -/
def looksLikeArchive (l : Location) : Bool :=
  !l.isArchiveRoot && l.extension?.any archiveExtensions.contains

/-- Media types by extension. -/
def mediaTypes : List (List String × String) :=
  [(["zip"], "application/zip"),
   (["jar", "war", "ear"], "application/java-archive"),
   (["class"], "application/java-vm"),
   (["java"], "text/x-java"),
   (["rs"], "text/x-rust"),
   (["cs"], "text/x-csharp"),
   (["py"], "text/x-python"),
   (["js", "mjs"], "text/javascript"),
   (["ts"], "text/x-typescript"),
   (["json"], "application/json"),
   (["xml", "pom"], "application/xml"),
   (["yaml", "yml"], "application/yaml"),
   (["toml"], "application/toml"),
   (["properties"], "text/x-java-properties"),
   (["md"], "text/markdown"),
   (["html", "htm"], "text/html"),
   (["txt", "mf"], "text/plain")]

/-- The media type that the name suggests. -/
def contentType? (l : Location) : Option String := do
  let ext ← l.extension?
  let row ← mediaTypes.find? fun row => row.1.contains ext
  return row.2

/-! ## 3. Moving -/

/-- The top of this resource, read as an archive.  The top of an archive is not entered again. -/
def nestedRoot? (l : Location) : Option Location :=
  if l.scheme = fileScheme then some ⟨archiveScheme, l.path, some Entry.top⟩
  else if l.scheme = archiveScheme ∧ !l.isArchiveRoot then
    some { l with entry := some ⟨l.levels, []⟩ }
  else none

/-- The location that a name leads to from here. -/
def join (l : Location) (name : String) : Location :=
  let steps := Step.ofPath name
  match l.entry with
  | some e => { l with entry := some ⟨e.outer, Trail.walk e.inner steps⟩ }
  | none => { l with path := l.path.walk steps }

/-- The containing location.  Above the top of an archive is the archive itself. -/
def parent? (l : Location) : Option Location :=
  match l.entry with
  | some ⟨outer, _ :: trail⟩ => some { l with entry := some ⟨outer, trail⟩ }
  | some ⟨[], []⟩ => some ⟨fileScheme, l.path, none⟩
  | some ⟨outer, []⟩ => some { l with entry := some (Entry.ofLevels outer) }
  | none => l.path.parent?.map fun path => { l with path }

/-- The first `n` levels of the entry. -/
def outermost (l : Location) (n : Nat) : Location :=
  { l with entry := some (Entry.ofLevels (l.levels.take n)) }

/-- The locations from here outward, with at most `fuel` steps. -/
def ancestorsWithin : Nat → Location → List Location
  | 0, l => [l]
  | fuel + 1, l =>
    match l.parent? with
    | some outer => l :: ancestorsWithin fuel outer
    | none => [l]

/-- A bound on the number of steps outward: one for each component and one for each level. -/
def depth (l : Location) : Nat :=
  l.path.components.length + (l.levels.map fun level => level.length + 1).foldr (· + ·) 0

/-- The locations from here outward. -/
def ancestors (l : Location) : List Location := ancestorsWithin l.depth l

/-- Locations are ordered like their URIs. -/
instance : Ord Location := ⟨compareOn uri⟩

end Location

end FactGraph
