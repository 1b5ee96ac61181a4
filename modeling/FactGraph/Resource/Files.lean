import FactGraph.FileSystem
import FactGraph.Resource

/-!
# Plain files

Resources of the `file` scheme: files and directories of a file system.  Links are followed.
-/

namespace FactGraph

namespace Files

/-- The path of a location of the `file` scheme. -/
def pathOf (l : Location) : Result String :=
  match l.filePath? with
  | some path => .ok path
  | none => .error (.unsupportedScheme s!"{l.scheme} (file resolver cannot read {l.uri})")

/-- Open a file or directory. -/
def stream (fs : FileSystem) (l : Location) : Result Stream := do
  let path ← pathOf l
  match fs.item? path with
  | .ok (.file content _) => return .bytes content
  | .ok _ => return .directory
  | .error .notFound => throw (.notFound l.uri)
  | .error fault => throw (.io s!"failed to open {path}: {fault.message}")

/-- Whether there is anything at a location. -/
def present (fs : FileSystem) (l : Location) : Result Bool := return fs.contains (← pathOf l)

/-- The locations directly below a directory, by URI; none below anything else. -/
def children (fs : FileSystem) (l : Location) : Result (List Location) := do
  match fs.item? (← pathOf l) with
  | .ok item =>
    let found := item.names.map l.join
    return found.mergeSort fun a b => a.uri ≤ b.uri
  | .error _ => return []

/-- Describe a file or directory. -/
def describe (fs : FileSystem) (l : Location) : Result Description := do
  match fs.item? (← pathOf l) with
  | .ok (.file content modified) =>
    return { size := content.length, modified := some modified, isDirectory := false,
             contentType := l.contentType? }
  | .ok (.directory _ modified) =>
    return { size := 0, modified := some modified, isDirectory := true, contentType := none }
  | .ok (.link _) | .error .notFound => throw (.notFound l.uri)
  | .error fault => throw (.io fault.message)

end Files

end FactGraph
