import FactGraph.FileSystem
import FactGraph.Settings
import FactGraph.Text.Whitespace
import FactGraph.Yaml.Read

/-!
# Settings as text

Settings are written as a mapping from their names.  A name that is not given keeps its default, and
a name that is not known, or given twice, is refused.
-/

namespace FactGraph

namespace Settings

/-! ## 1. Reading -/

/-- Set one setting by name. -/
def set (s : Settings) (name : String) (value : Yaml.Node) : Except String Settings :=
  let changed : Option (Option Settings) := match name with
    | "max_passes" => some ((value.naturalBelow? (Nat.pow 2 32)).map fun n => { s with maxPasses := n })
    | "parallel" => some (value.boolean?.map fun b => { s with parallel := b })
    | "threads" =>
      some ((value.optional? (Yaml.Node.naturalBelow? (Nat.pow 2 64))).map fun n => { s with threads := n })
    | "batch_size" => some ((value.naturalBelow? (Nat.pow 2 64)).map fun n => { s with batchSize := n })
    | "database" => some (value.text?.map fun t => { s with database := t })
    | "exclude" => some (value.texts?.map fun ts => { s with exclude := ts })
    | "disabled_units" => some (value.texts?.map fun ts => { s with disabledUnits := ts })
    | _ => none
  match changed with
  | none => .error s!"unknown field {name}"
  | some none => .error s!"{name}: invalid value"
  | some (some s) => .ok s

/-- Set settings in turn, each at most once. -/
def setAll (s : Settings) (done : List String) : List (String × Yaml.Node) → Except String Settings
  | [] => .ok s
  | (name, value) :: rest =>
    if done.contains name then .error s!"duplicate field {name}"
    else do (← s.set name value).setAll (name :: done) rest

/-- The settings that a document gives. -/
def ofDocument (document : Option Yaml.Node) : Except String Settings :=
  match document with
  | none => .ok {}
  | some n =>
    match n.entries? with
    | some entries => ({} : Settings).setAll [] entries
    | none => .error "invalid type, expected a mapping of settings"

/-- The settings that a text gives, before they are checked. -/
def read (text : String) : Except String Settings :=
  if Whitespace.onlyIn text then .ok {}
  else do ofDocument (← (Yaml.parse text).mapError Yaml.Fault.message)

/-- The settings that a text gives. -/
def ofText (text : String) : Result Settings := do (← (read text).mapError Error.config).validate

/-! ## 2. Writing -/

/-- A list of texts on the lines behind its name. -/
def renderList (name : String) (items : List String) : String :=
  match items with
  | [] => name ++ ": []\n"
  | items => name ++ ":\n" ++ String.join (items.map fun t => "- " ++ Yaml.quote t ++ "\n")

/-- Settings as a text that reads back as them. -/
def render (s : Settings) : String :=
  "max_passes: " ++ Decimal.digitText s.maxPasses ++ "\n" ++
  "parallel: " ++ (if s.parallel then "true" else "false") ++ "\n" ++
  "threads: " ++ (s.threads.map Decimal.digitText).getD "null" ++ "\n" ++
  "batch_size: " ++ Decimal.digitText s.batchSize ++ "\n" ++
  "database: " ++ Yaml.quote s.database ++ "\n" ++
  renderList "exclude" s.exclude ++
  renderList "disabled_units" s.disabledUnits

/-! ## 3. Files -/

/-- The settings in a file. -/
def loadFrom (fs : FileSystem) (path : String) : Result Settings := do
  let bytes ← (fs.read? path).mapError fun fault => Error.io fault.message
  match Utf8.decode? bytes with
  | none => throw (.io "stream did not contain valid UTF-8")
  | some text => (ofText text).mapError fun e => Error.config (path ++ ": " ++ e.message)

/-- The settings of a workspace; without a file they are the usual ones. -/
def load (fs : FileSystem) (root : String) : Result Settings :=
  let path := pathIn root
  if fs.contains path then loadFrom fs path else .ok {}

/-- Write settings to a file. -/
def save (s : Settings) (fs : FileSystem) (now : Moment) (path : String) : Result FileSystem :=
  (fs.writeFile now path (Utf8.encode s.render) now).mapError fun fault => Error.io fault.message

end Settings

end FactGraph
