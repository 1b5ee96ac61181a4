import FactGraph.Location

/-!
# Errors

An error is what makes one operation fail: storage, files, archives, settings.  What goes wrong with
one analyzer on one node is no error but a diagnostic of the run.
-/

namespace FactGraph

/-- Why an archive cannot be opened or one of its entries cannot be found. -/
inductive ArchiveFault where
  | invalid (reason : String)
  | unsupported (reason : String)
  | unreadable (reason : String)
  | missingEntry
deriving DecidableEq, Repr

namespace ArchiveFault

/-- The wording of a fault. -/
def message : ArchiveFault → String
  | .invalid reason => "invalid Zip archive: " ++ reason
  | .unsupported reason => "unsupported Zip archive: " ++ reason
  | .unreadable _ => "i/o error"
  | .missingEntry => "specified file not found in archive"

/-- The reason behind a fault that another one caused. -/
def reason? : ArchiveFault → Option String
  | .unreadable reason => some reason
  | _ => none

end ArchiveFault

/-- What makes an operation fail. -/
inductive Error where
  /-- Storage failed; `code` is the engine's own wording. -/
  | database (message : String) (code : Option String)
  | io (message : String)
  | archive (fault : ArchiveFault)
  | serialization (message : String)
  | unsupportedScheme (message : String)
  | invalidLocation (message : String)
  | notFound (message : String)
  | config (message : String)
  | internal (message : String)
deriving DecidableEq, Repr

namespace Error

/-- A location that cannot be read. -/
def ofLocation (fault : Location.Fault) : Error := .invalidLocation fault.message

/-- The full wording of an error. -/
def message : Error → String
  | .database m _ => "database error: " ++ m
  | .io m => "I/O error: " ++ m
  | .archive fault => "archive error: " ++ fault.message
  | .serialization m => "serialization error: " ++ m
  | .unsupportedScheme m => "unsupported scheme: " ++ m
  | .invalidLocation m => "invalid location: " ++ m
  | .notFound m => "not found: " ++ m
  | .config m => "configuration error: " ++ m
  | .internal m => "internal error: " ++ m

/-- What caused the error, nearest cause first. -/
def causes : Error → List String
  | .database m code => m :: code.toList
  | .io m => [m]
  | .archive fault => fault.message :: fault.reason?.toList
  | .serialization m => [m]
  | _ => []

/-- Whether the error says that something does not exist. -/
def isNotFound : Error → Bool
  | .notFound _ => true
  | _ => false

end Error

/-- A computation that may fail with an error. -/
abbrev Result := Except Error

end FactGraph
