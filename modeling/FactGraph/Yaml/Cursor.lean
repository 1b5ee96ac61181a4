/-!
# Reading positions

A settings document is read from left to right by a cursor that knows its line and column, because
indentation carries meaning.  This module has the character classes of the format and the cursor.
-/

namespace FactGraph

namespace Yaml

/-- Why a text is not a document. -/
inductive Fault where
  | forbiddenCharacter
  | unexpectedCharacter
  | unclosedQuote
  | escape
  | tabIndentation
  | blockHeader
  | missingColon
  | misplaced (what : String)
  | tag
  | anchor
  | unknownAlias (name : String)
  | directive
  | structure (expected : String)
  | severalDocuments
deriving DecidableEq, Repr

/-- The wording of a fault. -/
def Fault.message : Fault → String
  | .forbiddenCharacter => "control characters are not allowed"
  | .unexpectedCharacter => "found character that cannot start any token"
  | .unclosedQuote => "found unexpected end of quoted scalar"
  | .escape => "found unknown escape character"
  | .tabIndentation => "found a tab character that violates indentation"
  | .blockHeader => "did not find expected comment or line break"
  | .missingColon => "could not find expected ':'"
  | .misplaced what => what ++ " are not allowed in this context"
  | .tag => "did not find expected tag"
  | .anchor => "did not find expected alphabetic or numeric character"
  | .unknownAlias name => "unknown anchor " ++ name
  | .directive => "found a directive that is not understood"
  | .structure expected => "did not find expected " ++ expected
  | .severalDocuments => "found more than one document"

/-! ## 1. Characters -/

/-- Characters that end a line. -/
def isBreak (c : Char) : Bool := c == '\n' || c.toNat == 0x2028 || c.toNat == 0x2029

/-- Characters that separate words within a line. -/
def isBlank (c : Char) : Bool := c == ' ' || c == '\t'

/-- Characters between words. -/
def isSpace (c : Char) : Bool := isBlank c || isBreak c

/-- Whether a word ends here: at a space or at the end of the text. -/
def endsWord : Option Char → Bool
  | none => true
  | some c => isSpace c

/-- Whether a line ends here. -/
def endsLine : Option Char → Bool
  | none => true
  | some c => isBreak c

/-- Characters of names of anchors, handles and directives. -/
def isNameChar (c : Char) : Bool := c.isAlphanum || c == '_' || c == '-'

/-- Characters that a document may hold. -/
def isAllowed (c : Char) : Bool :=
  let n := c.toNat
  n == 0x09 || n == 0x0A || n == 0x0D || (0x20 ≤ n && n ≤ 0x7E) || n == 0x85 ||
    (0xA0 ≤ n && n ≤ 0xD7FF) || (0xE000 ≤ n && n ≤ 0xFFFD) || 0x10000 ≤ n

/-- All ways to end a line that mean the same become one. -/
def unifyBreaks : List Char → List Char
  | '\r' :: '\n' :: rest => '\n' :: unifyBreaks rest
  | c :: rest => (if c == '\r' || c.toNat == 0x85 then '\n' else c) :: unifyBreaks rest
  | [] => []

/-- Drop a byte order mark at the start. -/
def dropMark : List Char → List Char
  | c :: rest => if c.toNat == 0xFEFF then rest else c :: rest
  | [] => []

/-! ## 2. Cursors -/

/-- What is left to read, and where that is. -/
structure Cursor where
  rest : List Char
  line : Nat := 0
  column : Nat := 0
  index : Nat := 0

namespace Cursor

/-- A cursor at the start of a text, if a document may hold its characters. -/
def start (text : String) : Except Fault Cursor :=
  if text.toList.all isAllowed then .ok { rest := dropMark (unifyBreaks text.toList) }
  else .error .forbiddenCharacter

/-- The next character. -/
def peek (c : Cursor) : Option Char := c.rest.head?

/-- The character at a distance. -/
def peekAt (c : Cursor) (n : Nat) : Option Char := c.rest[n]?

/-- Whether the next character is the given one. -/
def isAt (c : Cursor) (x : Char) : Bool := c.peek == some x

/-- Move past a character. -/
def next (c : Cursor) : Cursor :=
  match c.rest with
  | [] => c
  | x :: rest =>
    if isBreak x then { rest, line := c.line + 1, column := 0, index := c.index + 1 }
    else { rest, line := c.line, column := c.column + 1, index := c.index + 1 }

/-- Move past some characters. -/
def advance (c : Cursor) : Nat → Cursor
  | 0 => c
  | n + 1 => c.next.advance n

/-- The longest run of characters with a property, and the cursor behind it. -/
def takeWhile (c : Cursor) (p : Char → Bool) : List Char × Cursor :=
  let run := c.rest.takeWhile p
  (run, c.advance run.length)

/-- Move past all characters with a property. -/
def skipWhile (c : Cursor) (p : Char → Bool) : Cursor := (c.takeWhile p).2

/-- Move past a comment, if there is one. -/
def skipComment (c : Cursor) : Cursor :=
  if c.isAt '#' then c.skipWhile (!isBreak ·) else c

/-- Whether a document marker made of a character stands here. -/
def atMarker (c : Cursor) (x : Char) : Bool :=
  c.column == 0 && c.rest.take 3 == [x, x, x] && endsWord (c.peekAt 3)

/-- Whether a document starts or ends here. -/
def atDocumentMarker (c : Cursor) : Bool := c.atMarker '-' || c.atMarker '.'

end Cursor

end Yaml

end FactGraph
