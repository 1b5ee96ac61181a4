import FactGraph.Decimal
import FactGraph.Value

/-!
# Values as text

Reading and writing structured values in JSON.  Reading keeps integers apart from measured numbers:
a literal without point and exponent that lies between `-2^63` and `2^64 - 1` is an integer, and
every other number is measured (`-0` too, since an integer has no sign of zero).
-/

namespace FactGraph

namespace Value

/-! ## 1. Writing -/

/-- The escape of a control character. -/
def controlEscape (c : Char) : List Char :=
  let hex := Nat.toDigits 16 c.toNat
  ['\\', 'u'] ++ List.replicate (4 - hex.length) '0' ++ hex

/-- A character inside quotes. -/
def quotedChar (c : Char) : List Char :=
  if c = '"' then ['\\', '"']
  else if c = '\\' then ['\\', '\\']
  else if c = '\n' then ['\\', 'n']
  else if c = '\r' then ['\\', 'r']
  else if c = '\t' then ['\\', 't']
  else if c.toNat = 8 then ['\\', 'b']
  else if c.toNat = 12 then ['\\', 'f']
  else if c.toNat < 32 then controlEscape c
  else [c]

/-- A text in quotes. -/
def quote (text : String) : String :=
  "\"" ++ String.ofList (text.toList.flatMap quotedChar) ++ "\""

mutual

/-- The text of a value. -/
def render : Value → String
  | .null => "null"
  | .bool true => "true"
  | .bool false => "false"
  | .int n => if n < 0 then "-" ++ Decimal.digitText n.natAbs else Decimal.digitText n.natAbs
  | .float x => if x.isFinite then (Decimal.shortest x).marked else "null"
  | .str text => quote text
  | .arr items => "[" ++ Split.join "," (renderItems items) ++ "]"
  | .obj fields => "\x7b" ++ Split.join "," (renderFields fields) ++ "\x7d"

/-- The texts of the items of a list. -/
def renderItems : List Value → List String
  | [] => []
  | v :: rest => render v :: renderItems rest

/-- The texts of the fields of an object. -/
def renderFields : List (String × Value) → List String
  | [] => []
  | (k, v) :: rest => (quote k ++ ":" ++ render v) :: renderFields rest

end

/-! ## 2. Numbers -/

/-- A number being read: what fits a machine word, and the power of ten of what follows. -/
structure Numeral where
  significand : Nat := 0
  exponent : Int := 0
  full : Bool := false

namespace Numeral

/-- Whether one more digit still fits a machine word. -/
def fits (n : Numeral) (digit : Nat) : Bool := n.significand * 10 + digit < Nat.pow 2 64

/-- Read a digit before the point; digits that no longer fit only count. -/
def integral (n : Numeral) (c : Char) : Numeral :=
  let digit := c.toNat - '0'.toNat
  if !n.full && n.fits digit then { n with significand := n.significand * 10 + digit }
  else { n with exponent := n.exponent + 1, full := true }

/-- Read a digit after the point; digits that no longer fit are dropped. -/
def fractional (n : Numeral) (c : Char) : Numeral :=
  let digit := c.toNat - '0'.toNat
  if !n.full && n.fits digit then
    { n with significand := n.significand * 10 + digit, exponent := n.exponent - 1 }
  else { n with full := true }

end Numeral

/-- The digits at the front of a text, and the rest. -/
def spanDigits (cs : List Char) : List Char × List Char := cs.span Char.isDigit

/-- The exponent at the front of a text: its sign, its digits, and the rest. -/
def exponentPart? : List Char → Option (Bool × List Char × List Char)
  | c :: rest =>
    if c = 'e' ∨ c = 'E' then
      let (negative, rest) :=
        match rest with
        | '-' :: rest => (true, rest)
        | '+' :: rest => (false, rest)
        | rest => (false, rest)
      match spanDigits rest with
      | ([], _) => none
      | (digits, rest) => some (negative, digits, rest)
    else none
  | [] => none

/-- The measured value of a numeral with a written exponent. -/
def measured? (negative : Bool) (n : Numeral) (expNegative : Bool) (expDigits : List Char) :
    Option Value :=
  let written := (digits? expDigits).getD 0
  -- an exponent beyond a machine word makes zero, or nothing at all
  if Nat.pow 2 31 ≤ written then
    if n.significand ≠ 0 ∧ !expNegative then none
    else some (.float (if negative then -0.0 else 0.0))
  else
    let e : Int := if expNegative then n.exponent - written else n.exponent + written
    (Decimal.toFloat? ⟨negative, n.significand, e⟩).map .float

/-- The number without point and exponent. -/
def whole? (negative : Bool) (n : Numeral) : Option Value :=
  if n.full then (Decimal.toFloat? ⟨negative, n.significand, n.exponent⟩).map .float
  else if !negative then some (.int n.significand)
  else if n.significand = 0 ∨ Nat.pow 2 63 < n.significand then
    (Decimal.toFloat? ⟨true, n.significand, 0⟩).map .float
  else some (.int (-(n.significand : Int)))

/-- Read a number after its sign. -/
def unsigned? (negative : Bool) (cs : List Char) : Option (Value × List Char) :=
  match spanDigits cs with
  | ([], _) => none
  | (digits, rest) =>
    if digits.head? = some '0' ∧ digits.length ≠ 1 then none
    else
      let n := digits.foldl Numeral.integral {}
      match rest with
      | '.' :: rest =>
        match spanDigits rest with
        | ([], _) => none
        | (places, rest) =>
          -- the point opens the machine word again for the digits behind it
          let n := places.foldl Numeral.fractional { n with full := false }
          match exponentPart? rest with
          | some (expNegative, expDigits, rest) =>
            (measured? negative n expNegative expDigits).map (·, rest)
          | none =>
            match rest with
            | 'e' :: _ | 'E' :: _ => none
            | _ => (measured? negative n false []).map (·, rest)
      | _ =>
        match exponentPart? rest with
        | some (expNegative, expDigits, rest) =>
          (measured? negative n expNegative expDigits).map (·, rest)
        | none =>
          match rest with
          | 'e' :: _ | 'E' :: _ => none
          | _ => (whole? negative n).map (·, rest)

/-! ## 3. Texts -/

/-- The value of a hexadecimal digit. -/
def hexValue? (c : Char) : Option Nat :=
  if '0' ≤ c ∧ c ≤ '9' then some (c.toNat - 48)
  else if 'a' ≤ c ∧ c ≤ 'f' then some (c.toNat - 87)
  else if 'A' ≤ c ∧ c ≤ 'F' then some (c.toNat - 55)
  else none

/-- The 16-bit unit of four hexadecimal digits. -/
def unit? (a b c d : Char) : Option Nat := do
  let a ← hexValue? a
  let b ← hexValue? b
  let c ← hexValue? c
  let d ← hexValue? d
  return ((a * 16 + b) * 16 + c) * 16 + d

/-- The character of a one-letter escape. -/
def letterEscape? : Char → Option Char
  | '"' => some '"'
  | '\\' => some '\\'
  | '/' => some '/'
  | 'b' => some (Char.ofNat 8)
  | 'f' => some (Char.ofNat 12)
  | 'n' => some '\n'
  | 'r' => some '\r'
  | 't' => some '\t'
  | _ => none

/-- Read a text up to its closing quote; `done` holds the characters so far, last first. -/
def quoted? (done : List Char) : List Char → Option (String × List Char)
  | [] => none
  | '"' :: rest => some (String.ofList done.reverse, rest)
  | '\\' :: 'u' :: a :: b :: c :: d :: rest => do
    let n ← unit? a b c d
    if 0xD800 ≤ n ∧ n < 0xDC00 then
      match rest with
      | '\\' :: 'u' :: a :: b :: c :: d :: rest => do
        let m ← unit? a b c d
        if 0xDC00 ≤ m ∧ m < 0xE000 then
          quoted? (Char.ofNat (0x10000 + (n - 0xD800) * 0x400 + (m - 0xDC00)) :: done) rest
        else none
      | _ => none
    else if 0xDC00 ≤ n ∧ n < 0xE000 then none
    else quoted? (Char.ofNat n :: done) rest
  | '\\' :: c :: rest => do
    let c ← letterEscape? c
    quoted? (c :: done) rest
  | c :: rest => if c.toNat < 32 then none else quoted? (c :: done) rest

/-! ## 4. Values -/

/-- Drop blanks. -/
def skipBlank : List Char → List Char :=
  List.dropWhile fun c => c = ' ' || c = '\n' || c = '\t' || c = '\r'

mutual

/-- Read a value; `fuel` bounds the number of steps. -/
def value? : Nat → List Char → Option (Value × List Char)
  | 0, _ => none
  | fuel + 1, cs =>
    match skipBlank cs with
    | 'n' :: 'u' :: 'l' :: 'l' :: rest => some (.null, rest)
    | 't' :: 'r' :: 'u' :: 'e' :: rest => some (.bool true, rest)
    | 'f' :: 'a' :: 'l' :: 's' :: 'e' :: rest => some (.bool false, rest)
    | '"' :: rest => (quoted? [] rest).map fun (text, rest) => (.str text, rest)
    | '[' :: rest =>
      match skipBlank rest with
      | ']' :: rest => some (.arr [], rest)
      | rest => items? fuel [] rest
    | '\x7b' :: rest =>
      match skipBlank rest with
      | '\x7d' :: rest => some (.obj [], rest)
      | rest => fields? fuel [] rest
    | '-' :: rest => unsigned? true rest
    | rest => unsigned? false rest

/-- Read the items of a list up to its end; `done` holds those read, last first. -/
def items? : Nat → List Value → List Char → Option (Value × List Char)
  | 0, _, _ => none
  | fuel + 1, done, cs => do
    let (v, rest) ← value? fuel cs
    match skipBlank rest with
    | ',' :: rest => items? fuel (v :: done) rest
    | ']' :: rest => some (.arr (v :: done).reverse, rest)
    | _ => none

/-- Read the fields of an object up to its end; `done` holds those read, last first. -/
def fields? : Nat → List (String × Value) → List Char → Option (Value × List Char)
  | 0, _, _ => none
  | fuel + 1, done, cs =>
    match skipBlank cs with
    | '"' :: rest => do
      let (key, rest) ← quoted? [] rest
      match skipBlank rest with
      | ':' :: rest =>
        let (v, rest) ← value? fuel rest
        match skipBlank rest with
        | ',' :: rest => fields? fuel ((key, v) :: done) rest
        | '\x7d' :: rest => some (object ((key, v) :: done).reverse, rest)
        | _ => none
      | _ => none
    | _ => none

end

/-- Read a text that holds one value. -/
def parse? (text : String) : Option Value := do
  let cs := text.toList
  let (v, rest) ← value? (cs.length + 1) cs
  if (skipBlank rest).isEmpty then some v else none

/-- How deeply lists and objects may be nested in a text that is read, from outside or from
storage.  Writing has no such limit. -/
def nestingLimit : Nat := 127

/-- Read a text that holds one value of bounded nesting. -/
def parseBounded? (text : String) : Option Value :=
  (parse? text).filter fun v => v.nesting ≤ nestingLimit

/-- Where a text opens a list or an object inside `limit` others, in bytes counted from one.  The text
is read from a place that lies inside `depth` lists and objects, is or is not quoted, and does or
does not follow a backslash. -/
def overrun? (limit depth column : Nat) (quoted escaped : Bool) : List Char → Option Nat
  | [] => none
  | c :: rest =>
    let next := column + c.utf8Size
    if escaped then overrun? limit depth next true false rest
    else if quoted then overrun? limit depth next (c != '"') (c == '\\') rest
    else if c = '[' ∨ c = '\x7b' then
      if depth = limit then some column else overrun? limit (depth + 1) next false false rest
    else if c = ']' ∨ c = '\x7d' then overrun? limit (depth - 1) next false false rest
    else overrun? limit depth next (c == '"') false rest

/-! ## 5. Stored numbers -/

/-- A measured number after it has been written and read again.  Text holds finite numbers only, so a
finite number never comes back as anything else. -/
def reread (x : Float) : Float :=
  if x.isFinite then
    match parse? (render (.float x)) with
    | some (.float y) => if y.isFinite then y else x
    | _ => x
  else x

theorem isFinite_reread {x : Float} (h : x.isFinite = true) : (reread x).isFinite = true := by
  rw [reread, if_pos h]
  split
  · split
    · assumption
    · exact h
  · exact h

/-- A value after it has been written and read again. -/
def stored (v : Value) : Value := v.mapFloat reread

end Value

end FactGraph
