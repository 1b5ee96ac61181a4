import FactGraph.Analyzer
import FactGraph.Context

/-!
# Collecting resources

The collector looks at directories and archives and observes what is directly inside them: a node for
each child, and an edge to it.  Run again and again it discovers the whole tree, archives inside
archives included.
-/

namespace FactGraph

namespace Builtin

variable {μ : Type}

/-! ## 1. Resource nodes -/

/-- The kind of directories. -/
def directoryKind : String := "directory"

/-- The kind of archives. -/
def archiveKind : String := "archive"

/-- The kind of all other resources. -/
def fileKind : String := "file"

/-- The tag of resources. -/
def resourceTag : String := "resource"

/-- The property that names the container of a resource. -/
def parentKey : String := "parent"

/-- The kind of a resource. -/
def kindOf (l : Location) (d : Description) : String :=
  if d.isDirectory then directoryKind
  else if l.looksLikeArchive then archiveKind
  else fileKind

/-- The node of a resource, without its container. -/
def resourceNode (l : Location) (d : Description) : Node μ :=
  let n : Node μ := { Node.new l.uri (kindOf l d) with label := l.fileName }
  let n := ((n.tag resourceTag).property "name" (.str l.fileName)).property "size" (.int d.size)
  let n := match d.contentType with
    | some type => n.property "content_type" (.str type)
    | none => n
  match d.modified with
  | some moment => n.property "modified" (.str (moment.text "+00:00"))
  | none => n

/-! ## 2. The collector -/

/-- What is listed for a node: an archive is entered. -/
def listedFor (n : Node μ) (l : Location) : Except String Location :=
  if n.kind = archiveKind then
    match l.nestedRoot? with
    | some root => .ok root
    | none => .error s!"{l.uri} cannot be opened as an archive"
  else .ok l

/-- Note one child, or that it cannot be described. -/
def collectChild (context : Context) (name : String) (n : Node μ) (f : Findings μ)
    (child : Location) : Findings μ :=
  if context.settings.excludes child.fileName then f
  else
    match context.describe child with
    | .error e => f.error name n.id s!"{child.uri}: {e.message}"
    | .ok d =>
      let node := (resourceNode child d).property parentKey (.str n.id)
      (f.edge ⟨n.id, node.id, "contains", none⟩).observe node

/-- The children of a node. -/
def childrenOf (context : Context) (n : Node μ) : Except String (List Location) := do
  let l ← (Context.locate n.id).mapError Error.message
  let listed ← listedFor n l
  (context.children listed).mapError Error.message

/-- The name of the collector. -/
def collectorName : String := "resource-collector"

/-- The analyzer that discovers resources. -/
def collector : Analyzer Context μ :=
  { name := collectorName
    targets := [directoryKind, archiveKind]
    contract := { produces := KeySet.ofMembers [resourceTag] }
    inspect := fun context n =>
      match childrenOf context n with
      | .error message => { findings := {}, verdict := .failed message }
      | .ok children =>
        { findings := children.foldl (collectChild context collectorName n) {}, verdict := .done } }

end Builtin

end FactGraph
