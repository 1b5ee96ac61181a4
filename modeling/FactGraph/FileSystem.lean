import FactGraph.Path
import FactGraph.Text.Utf8
import FactGraph.Time
import FactGraph.Zip.Archive

/-!
# File systems

A file system is a tree of directories, files and symbolic links, together with the directory in
which relative paths start.  Looking a path up walks it component by component; a link on the way is
replaced by its target, at most forty times.

How archive files are read is a part of it, too.  Nothing that is said about archives depends on their
format: a reader may be anything that turns bytes into an archive, and the one in `Zip` is used where
no other is given.
-/

namespace FactGraph

namespace FileSystem

/-! ## 1. Trees -/

/-- What a directory holds under a name.  Names are texts, as a listing shows them: what of a name is no
UTF-8 stands as `U+FFFD`, so two entries of a directory may have one name here. -/
inductive Item where
  | file (content : Bytes) (modified : Moment)
  | directory (children : List (String × Item)) (modified : Moment)
  | link (target : String)

/-- Why a path cannot be used. -/
inductive Fault where
  | notFound
  | alreadyExists
  | notDirectory
  | isDirectory
  | nameTooLong
  | tooManyLinks
  | embeddedNul
deriving DecidableEq, Repr

/-- The wording of a fault. -/
def Fault.message : Fault → String
  | .notFound => "No such file or directory (os error 2)"
  | .alreadyExists => "File exists (os error 17)"
  | .notDirectory => "Not a directory (os error 20)"
  | .isDirectory => "Is a directory (os error 21)"
  | .nameTooLong => "File name too long (os error 36)"
  | .tooManyLinks => "Too many levels of symbolic links (os error 40)"
  | .embeddedNul => "file name contained an unexpected NUL byte"

namespace Item

/-- Whether an item is a directory. -/
def isDirectory : Item → Bool
  | .directory _ _ => true
  | _ => false

/-- The item under a name. -/
def child? (item : Item) (name : String) : Option Item :=
  match item with
  | .directory children _ => children.lookup name
  | _ => none

/-- The names of a directory. -/
def names : Item → List String
  | .directory children _ => children.map (·.1)
  | _ => []

/-- Put an item at a place below this one, outermost name first; missing directories are made. -/
def put (item : Item) (made : Moment) : List String → Item → Item
  | [], new => new
  | name :: rest, new =>
    let (children, modified) := match item with
      | .directory children modified => (children, modified)
      | _ => ([], made)
    let inner := (children.lookup name).getD (.directory [] made)
    let entry := (name, inner.put made rest new)
    let kept := children.filter (·.1 ≠ name)
    .directory (kept ++ [entry]) modified

end Item

end FileSystem

/-- A tree, the directory in which relative paths start, outermost name first, and a reader of
archives. -/
structure FileSystem where
  root : FileSystem.Item
  current : List String := []
  unzip : Bytes → Except ArchiveFault Archive := Zip.openArchive

namespace FileSystem

/-- The path of the directory in which relative paths start. -/
def currentText (fs : FileSystem) : String := "/" ++ Split.join "/" fs.current

/-! ## 2. Looking paths up -/

/-- A place in the tree: its name and what is there, and the same for all directories around it,
innermost first. -/
abbrev Place := List (String × Item)

/-- What is at a place. -/
def itemAt (fs : FileSystem) (place : Place) : Item :=
  match place with
  | [] => fs.root
  | (_, item) :: _ => item

/-- The absolute path of a place. -/
def Place.text (place : Place) : String := "/" ++ Split.join "/" (place.map (·.1)).reverse

/-- The components of a path's text. -/
def componentsOf (text : String) : List String := Split.texts (· = '/') text

/-- The place that components lead to from a place. -/
def walk (fs : FileSystem) (links : Nat) (place : Place) (todo : List String) : Except Fault Place :=
  match todo with
  | [] => .ok place
  | name :: rest =>
    if !(fs.itemAt place).isDirectory then .error .notDirectory
    else if name = "" ∨ name = "." then fs.walk links place rest
    else if name = ".." then fs.walk links place.tail rest
    else if 255 < Utf8.length name then .error .nameTooLong
    else
      match (fs.itemAt place).child? name with
      | none => .error .notFound
      | some (.link target) =>
        if _h : links < 40 then
          let start := if Path.isAbsoluteText target then [] else place
          fs.walk (links + 1) start (componentsOf target ++ rest)
        else .error .tooManyLinks
      | some item => fs.walk links ((name, item) :: place) rest
termination_by (40 - links, todo.length)
decreasing_by
  all_goals simp_wf
  all_goals first
    | exact Prod.Lex.right _ (Nat.lt_succ_self _)
    | exact Prod.Lex.left _ _ (by omega)

/-- The place of a path; links are followed, the last one too. -/
def place? (fs : FileSystem) (path : String) : Except Fault Place :=
  if path.toList.any (·.toNat = 0) then .error .embeddedNul
  else if path = "" then .error .notFound
  else if 4096 ≤ Utf8.length path then .error .nameTooLong
  else
    let todo := componentsOf path
    if Path.isAbsoluteText path then fs.walk 0 [] todo else fs.walk 0 [] (fs.current ++ todo)

/-- What is at a path. -/
def item? (fs : FileSystem) (path : String) : Except Fault Item := (fs.place? path).map fs.itemAt

/-- Whether there is anything at a path. -/
def contains (fs : FileSystem) (path : String) : Bool := (fs.item? path).isOk

/-- Whether a path leads to a directory. -/
def isDirectory (fs : FileSystem) (path : String) : Bool :=
  match fs.item? path with
  | .ok item => item.isDirectory
  | .error _ => false

/-- The absolute path without links of what is at a path. -/
def canonical? (fs : FileSystem) (path : String) : Except Fault String :=
  (fs.place? path).map Place.text

/-- The bytes of a file.  A directory can be opened but not read. -/
def read? (fs : FileSystem) (path : String) : Except Fault Bytes := do
  match ← fs.item? path with
  | .file content _ => return content
  | _ => throw .isDirectory

/-! ## 3. Changes -/

/-- Put an item under a name in the directory at a place. -/
def putAt (fs : FileSystem) (made : Moment) (place : Place) (name : String) (item : Item) :
    FileSystem :=
  { fs with root := fs.root.put made ((place.map (·.1)).reverse ++ [name]) item }

/-- The last component of a path's text. -/
def lastComponent (path : String) : String :=
  ((componentsOf path).filter (· ≠ "")).getLast?.getD ""

/-- Make a directory and all directories around it. -/
def makeDirectories (fs : FileSystem) (made : Moment) : Nat → String → Except Fault FileSystem
  | 0, _ => .ok fs
  | fuel + 1, path =>
    match fs.item? path with
    | .ok (.directory _ _) => .ok fs
    | .ok _ => .error .alreadyExists
    | .error .notFound =>
      match Path.parentText? path with
      | none => .ok fs
      | some outer => do
        let fs ← if outer = "" then .ok fs else fs.makeDirectories made fuel outer
        let around ← fs.place? (if outer = "" then "." else outer)
        let name := lastComponent path
        if ((fs.itemAt around).child? name).isSome then .error .alreadyExists
        else return fs.putAt made around name (.directory [] made)
    | .error fault => .error fault

/-- Make a directory at a path, and all directories around it. -/
def makeDirectory (fs : FileSystem) (made : Moment) (path : String) : Except Fault FileSystem :=
  fs.makeDirectories made (path.length + 1) path

/-- Put an item at a path; directories around it are made. -/
def putPath (fs : FileSystem) (made : Moment) (path : String) (item : Item) :
    Except Fault FileSystem := do
  let outer := (Path.parentText? path).getD "/"
  let fs ← fs.makeDirectory made outer
  let around ← fs.place? outer
  return fs.putAt made around (lastComponent path) item

/-- Write a file; a link at its path is followed. -/
def writeFile (fs : FileSystem) (made : Moment) (path : String) (content : Bytes)
    (modified : Moment) : Except Fault FileSystem :=
  let target := (fs.canonical? path).toOption.getD path
  fs.putPath made target (.file content modified)

end FileSystem

end FactGraph
