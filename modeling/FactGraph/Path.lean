import FactGraph.Text.Split

/-!
# Paths in normal form

A path is where a walk ends.  The text of a path is a list of steps: a name goes down, `..` goes up,
nothing and `.` stay.  Walking them one by one gives the normal form, so nothing ever has to be
simplified afterwards: a name is gone the moment a step up cancels it.

Two kinds of places are walked.  A `Trail` starts at the top of an archive, above which there is
nothing, so a step up from the top stays there.  A `Path` starts at the root of the file system,
where it is the same, or at an unnamed place, where a step up that finds no name to cancel has to be
remembered.

Main statements: `Trail.walk_append`, `Path.walk_append` (walking composes).
-/

namespace FactGraph

/-! ## 1. Steps -/

/-- One step of a walk. -/
inductive Step where
  | stay
  | up
  | down (name : String)
deriving DecidableEq, Repr

namespace Step

/-- Whether a character separates two steps; both slashes do. -/
def separates (c : Char) : Bool := c = '/' || c = '\\'

/-- The step that a piece of text stands for. -/
def ofText (text : String) : Step :=
  if text = "" || text = "." then .stay
  else if text = ".." then .up
  else .down text

/-- The steps of a text. -/
def ofPath (text : String) : List Step := (Split.texts separates text).map ofText

end Step

/-! ## 2. Trails -/

/-- The names from the top of an archive down to a place in it, innermost first. -/
abbrev Trail := List String

namespace Trail

/-- Take one step; above the top there is only the top. -/
def step (trail : Trail) : Step → Trail
  | .stay => trail
  | .up => trail.tail
  | .down name => name :: trail

/-- Take several steps. -/
def walk (trail : Trail) (steps : List Step) : Trail := steps.foldl step trail

/-- The place that a text leads to from the top. -/
def ofText (text : String) : Trail := walk [] (Step.ofPath text)

/-- The names from the outside in, with `/` between them. -/
def text (trail : Trail) : String := Split.join "/" trail.reverse

theorem walk_append (trail : Trail) (s t : List Step) :
    trail.walk (s ++ t) = (trail.walk s).walk t := List.foldl_append

end Trail

/-! ## 3. Paths -/

/-- Where a path starts. -/
inductive Base where
  /-- The root of the file system. -/
  | root
  /-- The place `ups` steps above an unnamed one. -/
  | above (ups : Nat)
deriving DecidableEq, Repr

/-- A path in normal form: a start and the names below it, innermost first. -/
structure Path where
  base : Base
  trail : Trail
deriving DecidableEq, Repr

namespace Path

/-- Whether the path starts at the root. -/
def isAbsolute (p : Path) : Bool := p.base = .root

/-- Take one step.  A step up cancels a name; without one it is absorbed at the root and counted
elsewhere. -/
def step (p : Path) : Step → Path
  | .stay => p
  | .down name => { p with trail := name :: p.trail }
  | .up =>
    match p.trail, p.base with
    | _ :: outer, _ => { p with trail := outer }
    | [], .root => p
    | [], .above ups => ⟨.above (ups + 1), []⟩

/-- Take several steps. -/
def walk (p : Path) (steps : List Step) : Path := steps.foldl step p

/-- Where the walk of a text starts. -/
def start (text : String) : Path :=
  match text.toList with
  | c :: _ => if Step.separates c then ⟨.root, []⟩ else ⟨.above 0, []⟩
  | [] => ⟨.above 0, []⟩

/-- The normal form of a path's text. -/
def ofText (text : String) : Path := (start text).walk (Step.ofPath text)

/-- The components of the path from the outside in, leading `..` included. -/
def components (p : Path) : List String :=
  match p.base with
  | .root => p.trail.reverse
  | .above ups => List.replicate ups ".." ++ p.trail.reverse

/-- The text of a path. -/
def text (p : Path) : String :=
  match p.base, p.components with
  | .root, names => "/" ++ Split.join "/" names
  | .above _, [] => "."
  | .above _, names => Split.join "/" names

/-- The last component, if there is one. -/
def lastName (p : Path) : Option String := p.components.getLast?

/-- The path without its last component.  The root has none to give up, and a relative path keeps
its only one. -/
def parent? (p : Path) : Option Path :=
  match p.trail, p.base with
  | _ :: outer, .root => some ⟨.root, outer⟩
  | [], .root => none
  | _ :: outer, .above ups => if outer = [] ∧ ups = 0 then none else some ⟨.above ups, outer⟩
  | [], .above ups => if ups ≤ 1 then none else some ⟨.above (ups - 1), []⟩

theorem walk_append (p : Path) (s t : List Step) : p.walk (s ++ t) = (p.walk s).walk t :=
  List.foldl_append

/-! ## 4. Paths as plain text

The file system is addressed by texts that are not simplified: `a/../b` and `b` may be different
places when `a` is a link. -/

/-- Whether the text of a path starts at the root. -/
def isAbsoluteText (text : String) : Bool := text.toList.head? = some '/'

/-- Append one path's text to another's; an absolute one replaces it. -/
def joinText (left right : String) : String :=
  if isAbsoluteText right then right
  else if left = "" || left.toList.getLast? = some '/' then left ++ right
  else left ++ "/" ++ right

/-- The components of a path's text that tell places apart: doubled slashes, a slash at the end and
inner `.` do not count. -/
def textComponents (text : String) : List String :=
  let pieces := Split.texts (· = '/') text
  let start := match pieces with
    | "" :: _ => if text = "" then [] else ["/"]
    | "." :: _ => ["."]
    | _ => []
  start ++ pieces.filter fun piece => piece ≠ "" && piece ≠ "."

/-- The directory part of a path's text: what stands before its last component. -/
def parentText? (text : String) : Option String :=
  let kept := (text.toList.reverse.dropWhile (· = '/')).reverse
  if kept = [] then none
  else
    match Split.last '/' kept with
    | none => some ""
    | some (outer, _) =>
      let outer := (outer.reverse.dropWhile (· = '/')).reverse
      some (if outer = [] then "/" else String.ofList outer)

end Path

end FactGraph
