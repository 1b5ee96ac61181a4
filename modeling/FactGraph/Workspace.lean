import FactGraph.Builtin.Lines
import FactGraph.Settings.Text
import FactGraph.Store.Record

/-!
# Workspaces

A workspace is a directory with settings and a graph of its own.  Analyzing a target puts the node of
the target into the graph and runs all analyzers from there.
-/

namespace FactGraph

/-- An opened workspace. -/
structure Workspace (μ : Type) where
  root : String
  settings : Settings
  database : String
  roster : Roster Context μ

namespace Workspace

variable {μ : Type}

/-! ## 1. Opening -/

/-- The directory of a workspace without links. -/
def canonicalRoot (fs : FileSystem) (root : String) : Result String :=
  (fs.canonical? root).mapError fun _ => .io s!"workspace root not found: {root}"

/-- The graph in a file; an empty file has an empty one. -/
def graphIn? (content : Bytes) : Option (Store Float) :=
  if content.isEmpty then some Store.empty else (Utf8.decode? content).bind Store.ofKept?

/-- Make sure that a graph is kept at a path: the directories around it are made, and if there is
nothing an empty graph is put there. -/
def prepareDatabase (fs : FileSystem) (now : Moment) (path : String) : Result FileSystem := do
  let failed (fault : FileSystem.Fault) : Error := .io fault.message
  let fs ← match Path.parentText? path with
    | some outer => (fs.makeDirectory now outer).mapError failed
    | none => .ok fs
  match fs.item? path with
  | .ok (.file content _) =>
    if (graphIn? content).isSome then return fs
    else throw (.database "file is not a database"
      (some "Error code 26: File opened that is not a database file"))
  | .error .notFound => (fs.writeFile now path [] now).mapError failed
  | _ =>
    throw (.database s!"unable to open database file: {path}"
      (some "Error code 14: Unable to open the database file"))

/-- Open the workspace in a directory without links. -/
def openAt [Measure μ] (fs : FileSystem) (now : Moment) (root : String) (settings : Settings) :
    Result (Workspace μ × FileSystem) := do
  let database := settings.databasePath root
  let fs ← prepareDatabase fs now database
  return ({ root, settings, database, roster := Builtin.roster }, fs)

/-- Open a workspace with given settings. -/
def openWith [Measure μ] (fs : FileSystem) (now : Moment) (root : String) (settings : Settings) :
    Result (Workspace μ × FileSystem) := do
  let settings ← settings.validate
  openAt fs now (← canonicalRoot fs root) settings

/-- Open a workspace with its own settings. -/
def openIn [Measure μ] (fs : FileSystem) (now : Moment) (root : String) :
    Result (Workspace μ × FileSystem) := do
  let root ← canonicalRoot fs root
  openAt fs now root (← Settings.load fs root)

/-! ## 2. Analyzing -/

/-- The location of a target; a relative one starts at the workspace. -/
def targetLocation (w : Workspace μ) (target : Option String) : Location :=
  Location.file (match target with
    | some path => Path.joinText w.root path
    | none => w.root)

/-- Put the node of a location into a graph; what is known about it is read and stays. -/
def seed [Measure μ] (context : Context) (store : Store μ) (l : Location) :
    Result (Node μ × Store μ) := do
  let d ← context.describe l
  let fresh := Builtin.resourceNode l d
  let root ← match store.node? fresh.id with
    | some known =>
      match Node.refused? [known] with
      | some e => .error e
      | none => .ok (known.absorb fresh)
    | none => .ok fresh
  return (root, store.mergeNode root)

/-- Analyze a target under given settings; the run may be cancelled before it starts, or asked to
stop before a pass. -/
def analyzeWith [Measure μ] (w : Workspace μ) (fs : FileSystem) (store : Store μ)
    (target : Option String) (settings : Settings) (cancelled : Bool) (stop : Nat → Bool) :
    Result Report × Store μ :=
  match settings.validate with
  | .error e => (.error e, store)
  | .ok settings =>
    let context : Context := { settings, files := fs }
    match seed context store (w.targetLocation target) with
    | .error e => (.error e, store)
    | .ok (_, store) =>
      let (report, final) := (run w.roster context settings.limits stop).run
        { store, faults := Session.Faults.readBack, cancelled }
      (report, final.store)

/-- Analyze a target under the workspace's settings. -/
def analyze [Measure μ] (w : Workspace μ) (fs : FileSystem) (store : Store μ)
    (target : Option String) : Result Report × Store μ :=
  w.analyzeWith fs store target w.settings false fun _ => false

/-- Forget the graph and analyze a target. -/
def rebuild [Measure μ] (w : Workspace μ) (fs : FileSystem) (target : Option String) :
    Result Report × Store μ :=
  w.analyze fs Store.empty target

end Workspace

end FactGraph
