import FactGraph.Error
import FactGraph.Time
import FactGraph.Text.Utf8

/-!
# Resources

What can be said about a resource without reading it, and what reading it gives.
-/

namespace FactGraph

/-- What is known about a resource. -/
structure Description where
  size : Nat
  modified : Option Moment
  isDirectory : Bool
  contentType : Option String
deriving DecidableEq, Repr

/-- An opened resource.  A directory can be opened, but reading from it fails. -/
inductive Stream where
  | bytes (content : Bytes)
  | directory
deriving DecidableEq, Repr

namespace Stream

/-- The error of reading from a directory. -/
def directoryError : Error := .io "Is a directory (os error 21)"

/-- Everything in a stream. -/
def readAll : Stream → Result Bytes
  | .bytes content => .ok content
  | .directory => .error directoryError

/-- The first bytes of a stream. -/
def head (limit : Nat) : Stream → Result Bytes
  | .bytes content => .ok (content.take limit)
  | .directory => if limit = 0 then .ok [] else .error directoryError

end Stream

end FactGraph
