import FactGraph.Error
import FactGraph.Run

/-!
# Settings

What a workspace can adjust: the bounds of a run, where the graph is kept, what is not collected and
which analyzers are switched off.
-/

namespace FactGraph

/-- The settings of a workspace. -/
structure Settings where
  maxPasses : Nat := 32
  parallel : Bool := true
  threads : Option Nat := none
  batchSize : Nat := 256
  /-- Where the graph is kept, relative to the workspace. -/
  database : String := ".nereus/graph.db"
  /-- Names that are not collected. -/
  exclude : List String := [".git", "target", "node_modules", ".nereus"]
  /-- Analyzers that take no part in runs. -/
  disabledUnits : List String := []
deriving DecidableEq, Repr

namespace Settings

/-- The directory of a workspace for its own files. -/
def directory : String := ".nereus"

/-- Where a workspace keeps its settings. -/
def pathIn (root : String) : String := Path.joinText (Path.joinText root directory) "config.yaml"

/-- Where a workspace keeps its graph. -/
def databasePath (s : Settings) (root : String) : String := Path.joinText root s.database

/-- Refuse settings that make no sense. -/
def validate (s : Settings) : Result Settings :=
  if s.maxPasses = 0 then .error (.config "max_passes must be at least 1")
  else if s.batchSize = 0 then .error (.config "batch_size must be at least 1")
  else if s.threads = some 0 then
    .error (.config "threads must be at least 1 (omit it for the default)")
  else if s.database = "" then .error (.config "database path must not be empty")
  else .ok s

/-- Whether a name is not collected. -/
def excludes (s : Settings) (name : String) : Bool := s.exclude.contains name

/-- Whether an analyzer is switched off. -/
def disables (s : Settings) (analyzer : String) : Bool := s.disabledUnits.contains analyzer

/-- Whether two settings say the same; the place of the graph is compared as a place. -/
def same (s t : Settings) : Bool :=
  { s with database := "" } == { t with database := "" } &&
    Path.textComponents s.database == Path.textComponents t.database

/-- The bounds of a run under these settings. -/
def limits (s : Settings) : Limits :=
  { maxPasses := s.maxPasses, batchSize := s.batchSize, disabled := s.disabledUnits }

end Settings

end FactGraph
