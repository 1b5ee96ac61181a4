import FactGraph.Command
import FactGraph.Text.Split

/-!
# Arguments

Arguments are read from left to right, and the first one that cannot be understood decides.  A switch
is written with its name behind two dashes or its letter behind one; letters can be joined, and a
value stands in the next argument, behind an equals sign, or right behind the letter.  Everything
behind a bare double dash is an operand.
-/

namespace FactGraph

namespace Arguments

/-! ## 1. Switches -/

/-- What a value looks like. -/
inductive Form where
  | text
  /-- A text that is not empty. -/
  | path
  /-- A number below 2^32. -/
  | number
deriving DecidableEq, Repr

/-- How a switch is used. -/
inductive Use where
  /-- At most once, without a value. -/
  | flag
  /-- Any number of times, without a value. -/
  | count
  /-- At most once, with a value. -/
  | value (form : Form)
  /-- Any number of times, with a value each. -/
  | list (form : Form)
deriving DecidableEq, Repr

/-- A switch. -/
structure Switch where
  name : String
  letter : Option Char := none
  use : Use := .flag

/-- Why arguments give no command. -/
inductive Refusal where
  | usage
  | help
  | version (command : Option String)
deriving DecidableEq, Repr

/-- A whole number in decimal with an optional sign. -/
def integer? (text : String) : Option Int :=
  let digits? (cs : List Char) : Option Nat :=
    if cs.isEmpty || !cs.all Char.isDigit then none
    else some (cs.foldl (fun n c => 10 * n + (c.toNat - '0'.toNat)) 0)
  match text.toList with
  | '-' :: cs => (digits? cs).map fun n => -(n : Int)
  | '+' :: cs => (digits? cs).map fun n => (n : Int)
  | cs => (digits? cs).map fun n => (n : Int)

/-- A number below 2^32. -/
def number? (text : String) : Option Nat :=
  (integer? text).bind fun n => if 0 ≤ n ∧ n.toNat < Nat.pow 2 32 then some n.toNat else none

/-- Whether a value has a form. -/
def Form.accepts : Form → String → Bool
  | .text, _ => true
  | .path, value => value ≠ ""
  | .number, value => (number? value).isSome

namespace Use

/-- The form of values, if the switch has one. -/
def form? : Use → Option Form
  | .value form | .list form => some form
  | .flag | .count => none

/-- Whether the switch may be repeated. -/
def repeats : Use → Bool
  | .count | .list _ => true
  | .flag | .value _ => false

end Use

/-! ## 2. Reading -/

/-- What was given so far, in order. -/
structure Given where
  values : List (String × String) := []
  operands : List String := []

namespace Given

/-- Whether a switch was given. -/
def has (g : Given) (name : String) : Bool := g.values.any (·.1 == name)

/-- The values of a switch. -/
def all (g : Given) (name : String) : List String :=
  (g.values.filter (·.1 == name)).map (·.2)

/-- The value of a switch. -/
def value? (g : Given) (name : String) : Option String := (g.all name).head?

/-- Add a switch; one without a value has the empty one. -/
def add (g : Given) (s : Switch) (value : String) : Except Refusal Given :=
  if (g.has s.name && !s.use.repeats) || !s.use.form?.all (·.accepts value) then .error .usage
  else .ok { g with values := g.values ++ [(s.name, value)] }

end Given

/-- What may follow a command. -/
structure Grammar where
  command : Option String := none
  switches : List Switch
  /-- The form and the greatest number of operands. -/
  operand : Form := .text
  most : Nat := 0

namespace Grammar

/-- Whether an argument is a switch. -/
def isSwitch (arg : String) : Bool := arg.startsWith "-" && arg ≠ "-"

/-- Read joined letters; a switch at the end may still want its value. -/
def letters (g : Grammar) : List Char → Given → Except Refusal (Given × Option Switch)
  | [], given => .ok (given, none)
  | c :: rest, given =>
    if c = 'h' then .error .help
    else if c = 'V' then .error (.version g.command)
    else
      match g.switches.find? (·.letter == some c), rest with
      | none, _ => .error .usage
      | some s, rest =>
        if s.use.form?.isNone then do g.letters rest (← given.add s "")
        else
          match rest with
          | [] => .ok (given, some s)
          | '=' :: value => (given.add s (String.ofList value)).map (·, none)
          | value => (given.add s (String.ofList value)).map (·, none)

/-- Read a name with or without a value. -/
def long (g : Grammar) (text : List Char) (given : Given) : Except Refusal (Given × Option Switch) :=
  let (name, value) := match Split.first '=' text with
    | some (name, value) => (String.ofList name, some (String.ofList value))
    | none => (String.ofList text, none)
  match g.switches.find? (·.name == name), value with
  | some s, some value =>
    if s.use.form?.isSome then (given.add s value).map (·, none) else .error .usage
  | some s, none =>
    if s.use.form?.isSome then .ok (given, some s) else (given.add s "").map (·, none)
  | none, some _ => .error .usage
  | none, none =>
    if name = "help" then .error .help
    else if name = "version" then .error (.version g.command)
    else .error .usage

/-- Add an operand. -/
def addOperand (g : Grammar) (given : Given) (arg : String) : Except Refusal Given :=
  if given.operands.length < g.most && g.operand.accepts arg then
    .ok { given with operands := given.operands ++ [arg] }
  else .error .usage

/-- Read arguments.  Where no operand is allowed, the first one ends the reading. -/
def read (g : Grammar) : List String → Given → Except Refusal (Given × List String)
  | [], given => .ok (given, [])
  | arg :: rest, given =>
    if arg = "--" then do return (← rest.foldlM g.addOperand given, [])
    else if isSwitch arg then do
      let (given, wanting) ← match arg.toList with
        | '-' :: '-' :: text => g.long text given
        | '-' :: text => g.letters text given
        | _ => .error .usage
      match wanting, rest with
      | none, rest => g.read rest given
      | some s, value :: rest =>
        if isSwitch value then throw .usage else g.read rest (← given.add s value)
      | some _, [] => throw .usage
    else if g.most = 0 then .ok (given, arg :: rest)
    else do g.read rest (← g.addOperand given arg)

end Grammar

/-! ## 3. Commands -/

/-- The switches of all commands. -/
def common : List Switch :=
  [{ name := "workspace", letter := some 'w', use := .value .path },
   { name := "verbose", letter := some 'v', use := .count }]

/-- What may follow each command. -/
def grammars : List Grammar :=
  [{ command := some "analyze"
     switches := { name := "rebuild" } :: { name := "max-passes", use := .value .number } ::
       { name := "sequential" } :: common
     operand := .path, most := 1 },
   { command := some "query"
     switches := { name := "tag", letter := some 't', use := .list .text } ::
       { name := "all", letter := some 'a' } ::
       { name := "type", letter := some 'T', use := .value .text } :: common },
   { command := some "edges", switches := { name := "incoming" } :: common, most := 1 },
   { command := some "units", switches := common },
   { command := some "stats", switches := common },
   { command := some "ls", switches := common, most := 1 },
   { command := some "cat", switches := common, most := 1 }]

/-- The grammar of a command. -/
def grammar? (name : String) : Option Grammar := grammars.find? (·.command == some name)

/-- The command that arguments stand for. -/
def command? (name : String) (g : Given) : Option Command :=
  match name, g.operands with
  | "analyze", operands =>
    some (.analyze operands.head? (g.has "rebuild") ((g.value? "max-passes").bind number?)
      (g.has "sequential"))
  | "query", [] => some (.query (g.all "tag") (g.has "all") (g.value? "type"))
  | "edges", [id] => some (.edges id (g.has "incoming"))
  | "units", [] => some .units
  | "stats", [] => some .stats
  | "ls", [uri] => some (.ls uri)
  | "cat", [uri] => some (.cat uri)
  | _, _ => none

/-- Read what follows the name of a command; `outer` was given before the name. -/
def parseCommand (name : String) (outer : Given) (args : List String) : Except Refusal Invocation := do
  match grammar? name with
  | none => throw .usage
  | some g =>
    let (given, rest) ← g.read args {}
    if rest.isEmpty then
      match command? name given with
      | some command =>
        return { workspace := (given.value? "workspace").or (outer.value? "workspace"), command }
      | none => throw .usage
    else throw .usage

/-- Read the arguments of the program. -/
def parse (args : List String) : Except Refusal Invocation := do
  let top : Grammar := { switches := common }
  let (outer, rest) ← top.read args {}
  match rest with
  | [] => throw .usage
  | "help" :: names =>
    if names.all fun name => name = "help" || (grammar? name).isSome then throw .help else throw .usage
  | name :: args => parseCommand name outer args

end Arguments

end FactGraph
