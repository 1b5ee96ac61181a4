/-!
# Commands

What can be asked for on the command line.
-/

namespace FactGraph

/-- One thing to do in a workspace. -/
inductive Command where
  /-- Run all analyzers until the graph stops changing. -/
  | analyze (path : Option String) (rebuild : Bool) (maxPasses : Option Nat) (sequential : Bool)
  /-- List nodes by tag and type. -/
  | query (tags : List String) (all : Bool) (kind : Option String)
  /-- Show the edges of a node. -/
  | edges (id : String) (incoming : Bool)
  /-- List the analyzers in the order of execution. -/
  | units
  /-- Show the size of the graph. -/
  | stats
  /-- List what is directly below a resource. -/
  | ls (uri : String)
  /-- Print the content of a resource. -/
  | cat (uri : String)
deriving DecidableEq, Repr

/-- A command and the workspace it is for; none is the current directory. -/
structure Invocation where
  workspace : Option String
  command : Command
deriving DecidableEq, Repr

end FactGraph
