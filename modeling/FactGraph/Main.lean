import FactGraph.Shell

/-!
# The program

Reads the part of the disk that a command needs, runs the command, and writes back the graphs that it
changed.
-/

namespace FactGraph

namespace Main

open FileSystem (Item)

/-- The moment of a time of the disk. -/
def momentOf (t : IO.FS.SystemTime) : Moment := ⟨t.sec * 1000000000 + t.nsec.toNat⟩

/-- Read what is in a directory under a name, at most `depth` levels deep; directories with a skipped
name are left empty. -/
def load (skipped : List String) : Nat → IO.FS.DirEntry → IO (Option Item)
  | 0, _ => return none
  | depth + 1, e => do
    try
      let path := e.path
      let m ← path.metadata
      let time := momentOf m.modified
      match m.type with
      | .dir =>
        if (← path.symlinkMetadata).type == .symlink then
          return some (.link (← IO.FS.realPath path).toString)
        else if skipped.contains e.fileName then return some (.directory [] time)
        else
          let children ← (← path.readDir).toList.filterMapM fun child => do
            return (← load skipped depth child).map (child.fileName, ·)
          return some (.directory children time)
      | _ => return some (.file (← IO.FS.readBinFile path).toList time)
    catch _ => return none

/-- Put a path of the disk into a file system. -/
def copyIn (files : FileSystem) (skipped : List String) (depth : Nat) (path : String) :
    IO FileSystem := do
  let outer := (Path.parentText? path).getD "/"
  match ← load skipped depth ⟨outer, FileSystem.lastComponent path⟩ with
  | some item => return (files.putPath ⟨0⟩ path item).toOption.getD files
  | none => return files

/-- Whether a file system lacks a path. -/
def copyMissing (files : FileSystem) (skipped : List String) (path : String) : IO FileSystem :=
  if files.contains path then return files else copyIn files skipped 64 path

/-- The files for a command: what a workspace keeps for itself and, to analyze, all of the
workspace; or just the resource to look at. -/
def filesFor (current root : String) (command : Command) : IO FileSystem := do
  let base : FileSystem :=
    { root := .directory [] ⟨0⟩, current := (Path.textComponents current).filter (· ≠ "/") }
  match command with
  | .ls uri | .cat uri =>
    match Shell.locate root uri with
    | .ok l => copyIn base [] 3 l.path.text
    | .error _ => return base
  | _ =>
    let own := Path.joinText root Settings.directory
    let settings := (Settings.load (← copyIn base [] 3 own) root).toOption.getD {}
    let files ← match command with
      | .analyze path _ _ _ => do
        let files ← copyIn base settings.exclude 64 root
        copyMissing files settings.exclude (Path.joinText root (path.getD ""))
      | _ => pure base
    copyMissing (← copyIn files [] 3 own) [] (settings.databasePath root)

end Main

end FactGraph

open FactGraph in
/-- Run the program. -/
def main (args : List String) : IO UInt32 := do
  let current := (← IO.currentDir).toString
  let files ← match Arguments.parse args with
    | .ok i =>
      let root := Path.joinText current (i.workspace.getD "")
      Main.filesFor current root i.command
    | .error _ => pure { root := .directory [] ⟨0⟩ }
  let (exit, after) := runProgram ⟨0⟩ args { files }
  after.written.eraseDups.forM fun path => do
    if let some outer := Path.parentText? path then IO.FS.createDirAll outer
    if let .ok content := after.files.read? path then IO.FS.writeBinFile path ⟨content.toArray⟩
  let out ← IO.getStdout
  out.write ⟨exit.output.toArray⟩
  out.flush
  exit.errors.forM IO.eprintln
  return UInt32.ofNat exit.code
