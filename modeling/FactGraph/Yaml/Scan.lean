import FactGraph.Yaml.Scalar

/-!
# Tokens

A document is cut into tokens.  The structure of blocks is not written out but follows from columns:
a deeper column opens a block, and a shallower one closes blocks.  A mapping key is often recognised
only at the colon behind it; so wherever a key may start, its place among the tokens is remembered,
and the colon puts the missing tokens there.  Such a key ends on the line on which it starts.
-/

namespace FactGraph

namespace Yaml

/-- The parts of a document. -/
inductive Token where
  | version
  | handle (name expansion : String)
  | documentStart
  | documentEnd
  | openSequence
  | openMapping
  | close
  | openFlowSequence
  | closeFlowSequence
  | openFlowMapping
  | closeFlowMapping
  | item
  | comma
  | key
  | value
  | alias (name : String)
  | anchor (name : String)
  | tag (handle suffix : String)
  | scalar (style : Style) (text : String)
deriving DecidableEq, Repr

/-- A place where a mapping key may have started. -/
structure Candidate where
  /-- Whether nothing else than a key may stand there. -/
  required : Bool
  /-- The number of tokens before it. -/
  position : Nat
  line : Nat
  column : Nat
  index : Nat

/-- What is known while cutting. -/
structure Scanner where
  cursor : Cursor
  tokens : Array Token := #[]
  /-- The columns of the open blocks, innermost first. -/
  indents : List Nat := []
  /-- Whether a key may start here. -/
  keyAllowed : Bool := true
  /-- The candidate inside the innermost brackets. -/
  candidate : Option Candidate := none
  /-- The candidates outside of each pair of open brackets, innermost first. -/
  outer : List (Option Candidate) := []

namespace Scanner

/-- Whether the cursor is between brackets. -/
def inFlow (s : Scanner) : Bool := !s.outer.isEmpty

/-- The first column inside the innermost block. -/
def inner (s : Scanner) : Nat :=
  match s.indents with
  | [] => 0
  | n :: _ => n + 1

/-- Add a token. -/
def push (s : Scanner) (t : Token) : Scanner := { s with tokens := s.tokens.push t }

/-- Add tokens at a place. -/
def insertAt (s : Scanner) (position : Nat) (ts : List Token) : Scanner :=
  { s with tokens := s.tokens.take position ++ ts.toArray ++ s.tokens.drop position }

/-! ## 1. Blocks and candidates -/

/-- Close the blocks that are deeper than a column; no column closes all. -/
def closeTo (s : Scanner) (column : Option Nat) : Scanner :=
  if s.inFlow then s
  else
    let deeper := s.indents.takeWhile fun n => column.all (· < n)
    { s with
      indents := s.indents.drop deeper.length
      tokens := s.tokens ++ (deeper.map fun _ => Token.close).toArray }

/-- Whether a column opens a block. -/
def opens (s : Scanner) (column : Nat) : Bool := !s.inFlow && s.indents.head?.all (· < column)

/-- Open a block at a column if it is deep enough; its token goes to a place. -/
def openAt (s : Scanner) (column position : Nat) (t : Token) : Scanner :=
  if s.opens column then { s.insertAt position [t] with indents := column :: s.indents } else s

/-- Give up a candidate. -/
def dropCandidate (s : Scanner) : Except Fault Scanner :=
  if s.candidate.any (·.required) then .error .missingColon else .ok { s with candidate := none }

/-- Whether a candidate is too far behind to be a key. -/
def isStale (s : Scanner) (k : Candidate) : Bool :=
  k.line < s.cursor.line || k.index + 1024 < s.cursor.index

/-- A candidate, unless it is too far behind. -/
def refresh (s : Scanner) (k : Option Candidate) : Except Fault (Option Candidate) :=
  match k with
  | some k =>
    if s.isStale k then (if k.required then .error .missingColon else .ok none) else .ok (some k)
  | none => .ok none

/-- Give up all candidates that are too far behind. -/
def dropStale (s : Scanner) : Except Fault Scanner := do
  return { s with candidate := ← s.refresh s.candidate, outer := ← s.outer.mapM s.refresh }

/-- Remember that a key may start here. -/
def mark (s : Scanner) : Except Fault Scanner := do
  if s.keyAllowed then
    let s ← s.dropCandidate
    let c := s.cursor
    let required := !s.inFlow && s.indents.head? == some c.column
    return { s with candidate := some ⟨required, s.tokens.size, c.line, c.column, c.index⟩ }
  else return s

/-! ## 2. Spaces between tokens -/

/-- Skip spaces and comments.  A tab counts as a space only where no key may start. -/
def skipSpaces : Nat → Scanner → Scanner
  | 0, s => s
  | fuel + 1, s =>
    let tabs := s.inFlow || !s.keyAllowed
    let c := (s.cursor.skipWhile fun x => x == ' ' || (tabs && x == '\t')).skipComment
    if c.peek.any isBreak then
      skipSpaces fuel { s with cursor := c.next, keyAllowed := s.keyAllowed || !s.inFlow }
    else { s with cursor := c }

/-! ## 3. Names, tags and directives -/

/-- Read an anchor or alias; the cursor stands at its mark. -/
def anchorName (c : Cursor) : Except Fault (String × Cursor) :=
  let (name, c) := c.next.takeWhile isNameChar
  let ends := match c.peek with
    | none => true
    | some x => isSpace x || "?:,]\x7d%@".toList.contains x || x.toNat == 0x60
  if name.isEmpty || !ends then .error .anchor else .ok (String.ofList name, c)

/-- Characters of tags. -/
def isTagChar (verbatim : Bool) (c : Char) : Bool :=
  isNameChar c || ";/?:@&=+$.!~*()%".toList.contains c || c == apostrophe ||
    (verbatim && (c == ',' || c == '[' || c == ']'))

/-- Replace the escapes of a tag. -/
def unescapeTag : List Char → Option (List UInt8)
  | [] => some []
  | '%' :: a :: b :: rest => do
    let n ← hexValue? [a, b]
    return UInt8.ofNat n :: (← unescapeTag rest)
  | c :: rest => if c == '%' then none else do
    return String.utf8EncodeChar c ++ (← unescapeTag rest)

/-- Read the characters of a tag. -/
def tagText (verbatim : Bool) (c : Cursor) : Except Fault (String × Cursor) :=
  let (text, c) := c.takeWhile (isTagChar verbatim)
  match (unescapeTag text).bind fun bytes => String.fromUTF8? ⟨bytes.toArray⟩ with
  | some text => .ok (text, c)
  | none => .error .tag

/-- Read a tag handle: a mark, or a name between two marks.  The flag says whether it is closed. -/
def tagHandle (c : Cursor) : Except Fault (String × Bool × Cursor) :=
  if !c.isAt '!' then .error .tag
  else
    let (name, c) := c.next.takeWhile isNameChar
    if c.isAt '!' then .ok ("!" ++ String.ofList name ++ "!", true, c.next)
    else .ok ("!" ++ String.ofList name, false, c)

/-- Read a tag; the cursor stands at its mark. -/
def tag (flow : Bool) (c : Cursor) : Except Fault (Token × Cursor) := do
  let (token, c) ←
    if c.peekAt 1 == some '<' then do
      let (text, c) ← tagText true (c.advance 2)
      if text.isEmpty || !c.isAt '>' then throw .tag
      pure (Token.tag "" text, c.next)
    else do
      let (handle, closed, c) ← tagHandle c
      let (text, c) ← tagText false c
      if closed then
        if text.isEmpty then throw .tag
        pure (Token.tag handle text, c)
      else
        let suffix := (handle.drop 1).toString ++ text
        pure (if suffix.isEmpty then Token.tag "" "!" else Token.tag "!" suffix, c)
  if endsWord c.peek || (flow && c.isAt ',') then return (token, c) else throw .tag

/-- Read a number of a version. -/
def versionNumber (c : Cursor) : Except Fault (List Char × Cursor) :=
  let (digits, c) := c.takeWhile Char.isDigit
  if digits.isEmpty || 9 < digits.length then .error .directive else .ok (digits, c)

/-- The value of decimal digits. -/
def decimalValue (digits : List Char) : Nat :=
  digits.foldl (fun n c => 10 * n + (c.toNat - '0'.toNat)) 0

/-- Read a directive; the cursor stands at its mark. -/
def directive (c : Cursor) : Except Fault (Token × Cursor) := do
  let (name, c) := c.next.takeWhile isNameChar
  if name.isEmpty || !endsWord c.peek then throw .directive
  let c := c.skipWhile isBlank
  let (token, c) ←
    match String.ofList name with
    | "YAML" => do
      let (major, c) ← versionNumber c
      if !c.isAt '.' then throw .directive
      let (minor, c) ← versionNumber c.next
      if decimalValue major ≠ 1 ∨ (decimalValue minor ≠ 1 ∧ decimalValue minor ≠ 2) then
        throw .directive
      pure (Token.version, c)
    | "TAG" => do
      let (handle, closed, c) ← tagHandle c
      if !closed && handle ≠ "!" then throw .directive
      if !c.peek.any isBlank then throw .directive
      let (expansion, c) ← tagText true (c.skipWhile isBlank)
      if expansion.isEmpty || !endsWord c.peek then throw .directive
      pure (Token.handle handle expansion, c)
    | _ => throw .directive
  let c := (c.skipWhile isBlank).skipComment
  if endsLine c.peek then return (token, c.next) else throw .directive

/-! ## 4. One token -/

/-- Add a token of some characters. -/
def take (s : Scanner) (n : Nat) (t : Token) : Scanner :=
  { s.push t with cursor := s.cursor.advance n }

/-- Leave all blocks, at a marker or directive. -/
def leaveBlocks (s : Scanner) : Except Fault Scanner := do
  return { ← (s.closeTo none).dropCandidate with keyAllowed := false }

/-- An opening bracket. -/
def openFlow (s : Scanner) (t : Token) : Except Fault Scanner := do
  let s ← s.mark
  return { s.take 1 t with
    outer := s.candidate :: s.outer, candidate := none, keyAllowed := true }

/-- A closing bracket. -/
def closeFlow (s : Scanner) (t : Token) : Except Fault Scanner := do
  let s := { ← s.dropCandidate with keyAllowed := false }
  match s.outer with
  | [] => return s.take 1 t
  | k :: outer => return { s.take 1 t with outer, candidate := k }

/-- The start of a block entry by an indicator of its own. -/
def blockIndicator (s : Scanner) (opening t : Token) (what : String) : Except Fault Scanner := do
  if !s.inFlow && !s.keyAllowed then throw (.misplaced what)
  (s.openAt s.cursor.column s.tokens.size opening).dropCandidate.map (·.take 1 t)

/-- A dash. -/
def item (s : Scanner) : Except Fault Scanner := do
  return { ← s.blockIndicator .openSequence .item "block sequence entries" with keyAllowed := true }

/-- A question mark. -/
def explicitKey (s : Scanner) : Except Fault Scanner := do
  return { ← s.blockIndicator .openMapping .key "mapping keys" with keyAllowed := !s.inFlow }

/-- A colon: what stands before it on the line is a key, or the key is empty. -/
def value (s : Scanner) : Except Fault Scanner := do
  match s.candidate with
  | some k =>
    let s := (s.insertAt k.position [.key]).openAt k.column k.position .openMapping
    return { s.take 1 .value with candidate := none, keyAllowed := false }
  | none =>
    if !s.inFlow && !s.keyAllowed then throw (.misplaced "mapping values")
    let s := s.openAt s.cursor.column s.tokens.size .openMapping
    return { s.take 1 .value with keyAllowed := !s.inFlow }

/-- A token that may be, or start, a key. -/
def word (s : Scanner) (read : Scanner → Except Fault (Token × Cursor)) : Except Fault Scanner := do
  let s ← s.mark
  let (t, cursor) ← read s
  return { s.push t with cursor, keyAllowed := false }

/-- A quoted scalar. -/
def quoted (double : Bool) (s : Scanner) : Except Fault (Token × Cursor) := do
  let r ← quotedScalar double (s.cursor.rest.length + 1) s.cursor.next []
  return (.scalar (if double then .double else .single) (String.ofList r.text), r.cursor)

/-- A plain scalar. -/
def plain (s : Scanner) : Except Fault Scanner := do
  let s ← s.mark
  let r ← plainScalar s.inFlow s.inner (s.cursor.rest.length + 1) s.cursor [] []
  return { s.push (.scalar .plain (String.ofList r.text)) with
    cursor := r.cursor, keyAllowed := r.newLine }

/-- A block scalar. -/
def block (folded : Bool) (s : Scanner) : Except Fault Scanner := do
  let s ← s.dropCandidate
  let r ← blockScalar folded s.inner s.cursor.next
  return { s.push (.scalar (if folded then .folded else .literal) (String.ofList r.text)) with
    cursor := r.cursor, keyAllowed := true }

/-- Characters that start no plain scalar. -/
def isIndicator (c : Char) : Bool :=
  isSpace c || "-?:,[]\x7b\x7d#&*!|>%@".toList.contains c || c == apostrophe || c == quotationMark ||
    c.toNat == 0x60

/-- Whether a plain scalar starts with a character that is followed by another one. -/
def startsPlain (s : Scanner) (x : Char) (following : Option Char) : Bool :=
  !isIndicator x || (x == '-' && !following.any isBlank) ||
    (!s.inFlow && (x == '?' || x == ':') && !endsWord following)

/-- Read one token that starts with a character. -/
def token (s : Scanner) (x : Char) : Except Fault Scanner := do
  let c := s.cursor
  let following := c.peekAt 1
  if c.column == 0 && x == '%' then
    let s ← s.leaveBlocks
    let (t, cursor) ← directive c
    return { s.push t with cursor }
  else if c.atMarker '-' then return (← s.leaveBlocks).take 3 .documentStart
  else if c.atMarker '.' then return (← s.leaveBlocks).take 3 .documentEnd
  else if x == '[' then s.openFlow .openFlowSequence
  else if x == '{' then s.openFlow .openFlowMapping
  else if x == ']' then s.closeFlow .closeFlowSequence
  else if x == '}' then s.closeFlow .closeFlowMapping
  else if x == ',' then return { (← s.dropCandidate).take 1 .comma with keyAllowed := true }
  else if x == '-' && endsWord following then s.item
  else if x == '?' && (s.inFlow || endsWord following) then s.explicitKey
  else if x == ':' && (s.inFlow || endsWord following) then s.value
  else if x == '*' then
    s.word fun s => do
      let (name, c) ← anchorName s.cursor
      return (.alias name, c)
  else if x == '&' then
    s.word fun s => do
      let (name, c) ← anchorName s.cursor
      return (.anchor name, c)
  else if x == '!' then s.word fun s => tag s.inFlow s.cursor
  else if x == '|' && !s.inFlow then s.block false
  else if x == '>' && !s.inFlow then s.block true
  else if x == apostrophe then s.word (quoted false)
  else if x == quotationMark then s.word (quoted true)
  else if s.startsPlain x following then s.plain
  else throw .unexpectedCharacter

/-- Read all tokens. -/
def run : Nat → Scanner → Except Fault (List Token)
  | 0, _ => .error .unexpectedCharacter
  | fuel + 1, s => do
    let s ← (skipSpaces (s.cursor.rest.length + 1) s).dropStale
    match s.cursor.peek with
    | none => return (← (s.closeTo none).dropCandidate).tokens.toList
    | some x => run fuel (← (s.closeTo (some s.cursor.column)).token x)

end Scanner

/-- The tokens of a text. -/
def tokens (text : String) : Except Fault (List Token) := do
  let cursor ← Cursor.start text
  Scanner.run (cursor.rest.length + 2) { cursor }

end Yaml

end FactGraph
