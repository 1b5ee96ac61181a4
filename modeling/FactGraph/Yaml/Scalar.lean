import FactGraph.Yaml.Cursor

/-!
# Scalars

The five ways to write a scalar: plain, in single or double quotes, and as a literal or folded block.
Line breaks inside a scalar are folded: one break is a space, and of several breaks the first is
dropped.
-/

namespace FactGraph

namespace Yaml

/-- How a scalar is written. -/
inductive Style where
  | plain
  | single
  | double
  | literal
  | folded
deriving DecidableEq, Repr

/-- What a run of spaces between two words of a scalar stands for. -/
def foldedSpace (run : List Char) : List Char :=
  match run.filter isBreak with
  | [] => run
  | '\n' :: [] => [' ']
  | '\n' :: more => more
  | breaks => breaks

/-! ## 1. Plain scalars -/

/-- Characters that end a plain scalar between brackets. -/
def isFlowIndicator (c : Char) : Bool := c == ',' || c == '[' || c == ']' || c == '{' || c == '}'

/-- The characters of a plain scalar up to a space or an indicator that ends it. -/
def plainWord (flow : Bool) : List Char → Except Fault (List Char)
  | [] => .ok []
  | c :: rest =>
    if isSpace c then .ok []
    else if c == ':' && flow && (rest.head?.any fun d => isFlowIndicator d || d == '?') then
      .error .unexpectedCharacter
    else if c == ':' && endsWord rest.head? then .ok []
    else if flow && isFlowIndicator c then .ok []
    else (plainWord flow rest).map (c :: ·)

/-- Whether a tab stands in the indentation of a continued line; `column` is none on the first
line. -/
def tabInIndentation (indent : Nat) : Option Nat → List Char → Bool
  | _, [] => false
  | column, c :: rest =>
    if isBreak c then tabInIndentation indent (some 0) rest
    else match column with
      | none => tabInIndentation indent none rest
      | some n => (c == '\t' && n < indent) || tabInIndentation indent (some (n + 1)) rest

/-- A scalar that was read. -/
structure Scanned where
  text : List Char
  cursor : Cursor
  /-- Whether the cursor stands on a new line. -/
  newLine : Bool := false

/-- Read a plain scalar: words, as long as they are indented enough.  `text` is what was read before
`space`. -/
def plainScalar (flow : Bool) (indent : Nat) : Nat → Cursor → List Char → List Char →
    Except Fault Scanned
  | 0, c, text, space => .ok ⟨text, c, space.any isBreak⟩
  | fuel + 1, c, text, space => do
    if c.atDocumentMarker || c.isAt '#' then return ⟨text, c, space.any isBreak⟩
    let word ← plainWord flow c.rest
    if word.isEmpty then return ⟨text, c, space.any isBreak⟩
    let text := text ++ foldedSpace space ++ word
    let (space, c) := (c.advance word.length).takeWhile isSpace
    if tabInIndentation indent none space then throw .tabIndentation
    if space.isEmpty then return ⟨text, c, false⟩
    if !flow && c.column < indent then return ⟨text, c, space.any isBreak⟩
    plainScalar flow indent fuel c text space

/-! ## 2. Quoted scalars -/

/-- The apostrophe. -/
def apostrophe : Char := Char.ofNat 0x27

/-- The quotation mark. -/
def quotationMark : Char := Char.ofNat 0x22

/-- The character of an escape by a letter. -/
def escaped? (c : Char) : Option Char :=
  match c with
  | '0' => some (Char.ofNat 0x00)
  | 'a' => some (Char.ofNat 0x07)
  | 'b' => some (Char.ofNat 0x08)
  | 't' | '\t' => some '\t'
  | 'n' => some '\n'
  | 'v' => some (Char.ofNat 0x0B)
  | 'f' => some (Char.ofNat 0x0C)
  | 'r' => some '\r'
  | 'e' => some (Char.ofNat 0x1B)
  | ' ' => some ' '
  | '/' => some '/'
  | 'N' => some (Char.ofNat 0x85)
  | '_' => some (Char.ofNat 0xA0)
  | 'L' => some (Char.ofNat 0x2028)
  | 'P' => some (Char.ofNat 0x2029)
  | c => if c == quotationMark || c == '\\' then some c else none

/-- How many hexadecimal digits follow a letter. -/
def escapeWidth? : Char → Option Nat
  | 'x' => some 2
  | 'u' => some 4
  | 'U' => some 8
  | _ => none

/-- The value of a hexadecimal digit. -/
def hexDigit? (c : Char) : Option Nat :=
  if '0' ≤ c && c ≤ '9' then some (c.toNat - '0'.toNat)
  else if 'a' ≤ c && c ≤ 'f' then some (c.toNat - 'a'.toNat + 10)
  else if 'A' ≤ c && c ≤ 'F' then some (c.toNat - 'A'.toNat + 10)
  else none

/-- The value of hexadecimal digits. -/
def hexValue? (digits : List Char) : Option Nat :=
  digits.foldlM (fun n c => (hexDigit? c).map (16 * n + ·)) 0

/-- The character with a code, if there is one. -/
def charOfCode? (n : Nat) : Option Char :=
  if h : n.isValidChar then some (Char.ofNatAux n h) else none

/-- Read an escape; the cursor stands behind the backslash. -/
def escape (c : Cursor) : Except Fault (Char × Cursor) :=
  match c.peek with
  | none => .error .unclosedQuote
  | some x =>
    match escaped? x, escapeWidth? x with
    | some char, _ => .ok (char, c.next)
    | none, some width =>
      let digits := c.next.rest.take width
      if digits.length < width then .error .escape
      else
        match (hexValue? digits).bind charOfCode? with
        | some char => .ok (char, c.advance (width + 1))
        | none => .error .escape
    | none, none => .error .escape

/-- Read a quoted scalar up to its closing quote. -/
def quotedScalar (double : Bool) : Nat → Cursor → List Char → Except Fault Scanned
  | 0, _, _ => .error .unclosedQuote
  | fuel + 1, c, text => do
    let quote := if double then quotationMark else apostrophe
    if c.atDocumentMarker then throw .unclosedQuote
    match c.peek with
    | none => throw .unclosedQuote
    | some x =>
      if isSpace x then
        let (space, c) := c.takeWhile isSpace
        quotedScalar double fuel c (text ++ foldedSpace space)
      else if x == quote then
        if !double && c.peekAt 1 == some quote then
          quotedScalar double fuel (c.advance 2) (text ++ [quote])
        else return ⟨text, c.next, false⟩
      else if double && x == '\\' then
        if c.peekAt 1 |>.any isBreak then
          let (space, c) := (c.advance 2).takeWhile isSpace
          quotedScalar double fuel c (text ++ space.filter isBreak)
        else
          let (char, c) ← escape c.next
          quotedScalar double fuel c (text ++ [char])
      else quotedScalar double fuel c.next (text ++ [x])

/-! ## 3. Block scalars -/

/-- What happens to the line breaks at the end of a block. -/
inductive Chomping where
  | strip
  | clip
  | keep
deriving DecidableEq, Repr

/-- The chomping of an indicator. -/
def chomping? : Option Char → Option Chomping
  | some '+' => some .keep
  | some '-' => some .strip
  | _ => none

/-- The number of an indentation indicator; zero is refused. -/
def indentation? (c : Option Char) : Except Fault (Option Nat) :=
  match c with
  | some d =>
    if d == '0' then .error .blockHeader
    else if '1' ≤ d && d ≤ '9' then .ok (some (d.toNat - '0'.toNat))
    else .ok none
  | none => .ok none

/-- Read the indicators behind the mark of a block, in either order. -/
def blockIndicators (c : Cursor) : Except Fault (Chomping × Option Nat × Cursor) := do
  match chomping? c.peek with
  | some chomping =>
    let c := c.next
    match ← indentation? c.peek with
    | some n => return (chomping, some n, c.next)
    | none => return (chomping, none, c)
  | none =>
    match ← indentation? c.peek with
    | some n =>
      let c := c.next
      match chomping? c.peek with
      | some chomping => return (chomping, some n, c.next)
      | none => return (.clip, some n, c)
    | none => return (.clip, none, c)

/-- Skip the indentation of a line, up to a known one. -/
def skipIndentation (indent : Option Nat) (c : Cursor) : Cursor :=
  let spaces := c.rest.takeWhile (· == ' ')
  match indent with
  | none => c.advance spaces.length
  | some n => c.advance (min spaces.length (n - c.column))

/-- Read empty lines and the indentation of the first other line: the breaks, and the widest
indentation met. -/
def blockBreaks (indent : Option Nat) : Nat → Cursor → List Char → Nat →
    Except Fault (List Char × Nat × Cursor)
  | 0, c, breaks, widest => .ok (breaks, widest, c)
  | fuel + 1, c, breaks, widest => do
    let c := skipIndentation indent c
    let widest := max widest c.column
    if c.isAt '\t' && (indent.all fun n => c.column < n) then throw .tabIndentation
    match c.peek with
    | some x =>
      if isBreak x then blockBreaks indent fuel c.next (breaks ++ [x]) widest
      else return (breaks, widest, c)
    | none => return (breaks, widest, c)

/-- A block that is being read. -/
structure BlockText where
  text : List Char := []
  /-- The break that ended the last line. -/
  lastBreak : List Char := []
  /-- The breaks of the empty lines since. -/
  emptyBreaks : List Char := []
  /-- Whether the last line began with a blank. -/
  blankBefore : Bool := false

/-- Read the lines of a block with a known indentation. -/
def blockLines (folded : Bool) (indent : Nat) : Nat → Cursor → BlockText →
    Except Fault (BlockText × Cursor)
  | 0, c, b => .ok (b, c)
  | fuel + 1, c, b => do
    if c.column != indent || c.peek.isNone then return (b, c)
    let blank := c.peek.any isBlank
    let joined :=
      if folded && b.lastBreak.head? == some '\n' && !b.blankBefore && !blank then
        if b.emptyBreaks.isEmpty then [' '] else []
      else b.lastBreak
    let (line, c) := c.takeWhile (!isBreak ·)
    let lastBreak := c.peek.toList
    let (emptyBreaks, _, c) ← blockBreaks (some indent) (c.rest.length + 1) c.next [] 0
    blockLines folded indent fuel c
      { text := b.text ++ joined ++ b.emptyBreaks ++ line, lastBreak, emptyBreaks, blankBefore := blank }

/-- Read a block scalar; the cursor stands behind its mark, and `outer` is the first column inside
the block around it. -/
def blockScalar (folded : Bool) (outer : Nat) (c : Cursor) : Except Fault Scanned := do
  let (chomping, increment, c) ← blockIndicators c
  let c := (c.skipWhile isBlank).skipComment
  if !endsLine c.peek then throw .blockHeader
  let c := c.next
  let fuel := c.rest.length + 1
  let known := increment.map (outer - 1 + ·)
  let (breaks, widest, c) ← blockBreaks known fuel c [] 0
  let indent := known.getD (max widest (max outer 1))
  let (b, c) ← blockLines folded indent fuel c { emptyBreaks := breaks }
  let kept := match chomping with
    | .strip => []
    | .clip => b.lastBreak
    | .keep => b.lastBreak ++ b.emptyBreaks
  return ⟨b.text ++ kept, c, true⟩

end Yaml

end FactGraph
