import FactGraph.Command.Arguments
import FactGraph.Command.Display
import FactGraph.Workspace

/-!
# Running commands

The program reads its arguments as a command and runs it.  A command works on files, among them the
graphs of the workspaces, prints lines and may fail.  What was printed, and what was changed, before
a failure stays.
-/

namespace FactGraph

namespace Shell

/-! ## 1. State -/

/-- What commands work on, and what they have printed. -/
structure State where
  files : FileSystem
  printed : Bytes := []
  /-- The files that were written. -/
  written : List String := []

/-- A piece of a command. -/
abbrev Action := ExceptT Error (StateM State)

/-- Go on with a result. -/
def ofResult {α : Type} (r : Result α) : Action α := ExceptT.mk (pure r)

/-- Print bytes. -/
def write (bytes : Bytes) : Action Unit := modify fun s => { s with printed := s.printed ++ bytes }

/-- Print a line. -/
def line (text : String) : Action Unit := write (Utf8.encode (text ++ "\n"))

/-- Print lines. -/
def lines (texts : List String) : Action Unit := texts.forM line

/-- Open the workspace of a command. -/
def openWorkspace (now : Moment) (root : String) : Action (Workspace Float) := do
  let (w, files) ← ofResult (Workspace.openIn (← get).files now root)
  modify fun s => { s with files }
  return w

/-- The graph of a workspace. -/
def graph (w : Workspace Float) : Action (Store Float) := do
  let content := ((← get).files.read? w.database).toOption.getD []
  return (Workspace.graphIn? content).getD Store.empty

/-- Replace the graph of a workspace. -/
def setGraph (now : Moment) (w : Workspace Float) (g : Store Float) : Action Unit := do
  let files ← ofResult (((← get).files.writeFile now w.database (Utf8.encode g.keep) now).mapError
    fun fault => Error.io fault.message)
  modify fun s => { s with files, written := w.database :: s.written }

/-! ## 2. Analyzing -/

/-- One line about a pass. -/
def passLine (p : PassSummary) : String :=
  let pass := p.pass
  let ran := p.ran
  let skipped := p.skipped
  let failed := p.failed
  let deferred := p.deferred
  let written := p.commit.nodesWritten
  s!"  pass {pass}: {ran} ran, {skipped} skipped, {failed} failed, {deferred} deferred, {written} nodes written"

/-- What is told about a finished run. -/
def reportLines (r : Report) (s : Store.Statistics) : List String :=
  let passes := r.passes.length
  let stop := r.stop.text
  let added := r.factsAdded
  let nodes := s.nodes
  let edges := s.edges
  let tags := s.distinctTags
  ["", s!"Finished after {passes} passes ({stop}), {added} facts added"] ++
    r.passes.map passLine ++
    [s!"Graph: {nodes} nodes, {edges} edges, {tags} distinct tags"] ++
    Display.diagnostics "Errors" r.failures ++ Display.diagnostics "Warnings" r.warnings

/-- Run the analyzers. -/
def analyze (now : Moment) (root : String) (path : Option String) (rebuild : Bool)
    (maxPasses : Option Nat) (sequential : Bool) : Action Unit := do
  let w ← openWorkspace now root
  line ("Analyzing " ++ path.getD w.root ++ "...")
  if rebuild then
    line "Rebuilding graph from scratch"
    setGraph now w Store.empty
  let settings := { w.settings with
    maxPasses := maxPasses.getD w.settings.maxPasses
    parallel := w.settings.parallel && !sequential }
  let (report, store) := w.analyzeWith (← get).files (← graph w) path settings false fun _ => false
  setGraph now w store
  lines (reportLines (← ofResult report) store.statistics)

/-! ## 3. Looking at the graph -/

/-- Stop with an error, if there is one. -/
def stopWith? : Option Error → Action Unit
  | some e => throw e
  | none => return ()

/-- The nodes that a query asks for. -/
def selected (g : Store Float) (tags : List String) (all : Bool) (kind : Option String) :
    List (Node Float) :=
  if tags.isEmpty then
    match kind with
    | some k => g.nodesOfKind k
    | none => g.allNodes
  else g.nodesByTags kind tags (if all then .all else .any)

/-- List nodes. -/
def query (now : Moment) (root : String) (tags : List String) (all : Bool) (kind : Option String) :
    Action Unit := do
  let g ← graph (← openWorkspace now root)
  let nodes := selected g tags all kind
  stopWith? (Node.refused? nodes)
  if nodes.isEmpty then
    line "No nodes found"
    if g.rows.isEmpty then
      lines ["", "hint: The graph is empty. Run 'nereus analyze' first."]
  else
    let count := nodes.length
    lines [s!"Found {count} nodes:", ""]
    lines (nodes.flatMap Display.node)

/-- Show the edges of a node. -/
def edges (now : Moment) (root id : String) (incoming : Bool) : Action Unit := do
  let g ← graph (← openWorkspace now root)
  match g.node? id with
  | none => throw (.notFound ("node '" ++ id ++ "'"))
  | some n =>
    stopWith? (Node.refused? [n])
    lines (Display.node n)
    let edges := if incoming then g.incoming id else g.outgoing id
    stopWith? (Edge.refused? edges)
    if edges.isEmpty then line "    no edges" else lines (edges.map (Display.edge incoming))

/-- The lines about an analyzer. -/
def unitLines (w : Workspace Float) (a : Analyzer Context Float) : List String :=
  let label := if w.settings.disables a.name then a.name ++ " (disabled)" else a.name
  let targets := if a.targets.isEmpty then "*" else Split.join ", " a.targets
  ["  " ++ label, "    targets: " ++ targets] ++
    Display.names "consumes" a.contract.consumes.members ++
    Display.names "produces" a.contract.produces.members ++
    Display.names "needs" a.contract.needs.members

/-- List the analyzers in the order of execution. -/
def units (now : Moment) (root : String) : Action Unit := do
  let w ← openWorkspace now root
  let ds := w.roster.declarations
  let plan := Plan.ofDeclarations ds
  let count := w.roster.analyzers.length
  let depth := plan.depth
  lines [s!"Units ({count} registered, depth {depth})", ""]
  lines (plan.order.flatMap fun i => (w.roster.analyzers[i]?.toList).flatMap (unitLines w))
  lines (Display.diagnostics "Warnings" (Roster.validate ds ++ plan.diagnostics))

/-- How often an analyzer finished in each way: ran, skipped, failed. -/
def outcomes (rows : List LedgerRow) (analyzer : String) : Nat × Nat × Nat :=
  let mine := rows.filter (·.pair.analyzer == analyzer)
  let count (o : Outcome) : Nat := (mine.filter (·.finish.outcome == o)).length
  (count .ran, count .skipped, count .failed)

/-- The lines about what the analyzers did. -/
def ledgerLines (rows : List LedgerRow) : List String :=
  let names := (rows.map (·.pair.analyzer)).eraseDups
  if names.isEmpty then []
  else
    ["", "  Unit runs:"] ++ names.map fun name =>
      let (ran, skipped, failed) := outcomes rows name
      s!"    {name}: {ran} ran, {skipped} skipped, {failed} errors"

/-- Show the size of the graph. -/
def stats (now : Moment) (root : String) : Action Unit := do
  let w ← openWorkspace now root
  let g ← graph w
  let s := g.statistics
  let size := match (← get).files.item? w.database with
    | .ok (.file content _) => Display.size content.length
    | _ => "size unknown"
  let nodes := s.nodes
  let edges := s.edges
  let tags := s.tags
  let distinct := s.distinctTags
  let facts := g.factCount
  lines ["Nereus Graph Statistics", "", "  Database: " ++ w.database ++ " (" ++ size ++ ")", "",
    s!"  Nodes: {nodes}", s!"  Edges: {edges}", s!"  Tags: {tags} assignments, {distinct} distinct"]
  stopWith? (Node.uncounted? g.allNodes)
  lines (s!"  Facts: {facts}" :: ledgerLines g.ledgerRows)

/-! ## 4. Looking at resources -/

/-- The location of a resource: what has a colon is a location, anything else a path in the
workspace. -/
def locate (root uri : String) : Result Location :=
  if uri.toList.contains ':' then (Location.parse uri).mapError Error.ofLocation
  else .ok (Location.file (Path.joinText root uri))

/-- Where a listing looks: inside an archive rather than at it. -/
def listed (l : Location) : Location := if l.looksLikeArchive then l.nestedRoot?.getD l else l

/-- List what is directly below a resource. -/
def ls (root uri : String) : Action Unit := do
  let files := (← get).files
  let l := listed (← ofResult (locate root uri))
  let children ← ofResult (Resolver.standard.children files l)
  let count := children.length
  line (l.uri ++ s!" ({count} entries)")
  children.forM fun child => do
    let d ← ofResult (Resolver.standard.describe files child)
    line (if d.isDirectory then "  " ++ child.fileName ++ "/"
      else "  " ++ child.fileName ++ " " ++ Display.size d.size)

/-- Print the content of a resource. -/
def cat (root uri : String) : Action Unit := do
  write (← ofResult (Resolver.standard.read (← get).files (← ofResult (locate root uri))))

end Shell

/-! ## 5. The program -/

/-- Run a command in a workspace. -/
def Command.action (now : Moment) (root : String) : Command → Shell.Action Unit
  | .analyze path rebuild maxPasses sequential =>
    Shell.analyze now root path rebuild maxPasses sequential
  | .query tags all kind => Shell.query now root tags all kind
  | .edges id incoming => Shell.edges now root id incoming
  | .units => Shell.units now root
  | .stats => Shell.stats now root
  | .ls uri => Shell.ls root uri
  | .cat uri => Shell.cat root uri

/-- How the program ends. -/
structure Exit where
  code : Nat
  output : Bytes := []
  errors : List String := []

/-- The name and version of the program, or of one of its commands. -/
def versionText (command : Option String) : String :=
  match command with
  | some name => "nereus-" ++ name ++ " 0.1.0"
  | none => "nereus 0.1.0"

/-- How the program is used. -/
def usageLines : List String :=
  ["Usage: nereus [OPTIONS] <COMMAND>", "",
   "  analyze [--rebuild] [--max-passes N] [--sequential] [PATH]",
   "  query [-t TAG]... [-a] [-T TYPE]",
   "  edges [--incoming] ID",
   "  units",
   "  stats",
   "  ls URI",
   "  cat URI", "",
   "Options:",
   "  -w, --workspace DIRECTORY",
   "  -v, --verbose",
   "  -h, --help",
   "  -V, --version"]

/-- Run the program on its arguments. -/
def runProgram (now : Moment) (args : List String) (s : Shell.State) : Exit × Shell.State :=
  let shown (texts : List String) : Bytes := Utf8.encode (String.join (texts.map (· ++ "\n")))
  match Arguments.parse args with
  | .error .usage => ({ code := 2, errors := usageLines }, s)
  | .error .help => ({ code := 0, output := shown usageLines }, s)
  | .error (.version command) => ({ code := 0, output := shown [versionText command] }, s)
  | .ok i =>
    let root := i.workspace.getD s.files.currentText
    let (result, after) := (i.command.action now root).run { s with printed := [], written := [] }
    match result with
    | .ok () => ({ code := 0, output := after.printed }, after)
    | .error e => ({ code := 1, output := after.printed, errors := Display.error e }, after)

end FactGraph
