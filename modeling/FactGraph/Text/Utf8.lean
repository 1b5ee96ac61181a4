/-!
# UTF-8 as a byte automaton

One automaton reads well-formed UTF-8: its state says which bytes may come next.  Shortest forms
only, no surrogates, nothing above U+10FFFF: the four lead bytes `E0`, `ED`, `F0`, `F4` narrow the
range of the byte after them, so each has a state of its own.

Three questions are answered by the same automaton: is a byte string well formed, is it the
beginning of a well-formed one, and which text does it spell when every piece that cannot be read
counts as one replacement character.
-/

namespace FactGraph

/-- A byte string. -/
abbrev Bytes := List UInt8

namespace Utf8

/-! ## 1. The automaton -/

/-- What the bytes read so far leave open. -/
inductive State where
  /-- Between characters. -/
  | between
  /-- One continuation byte is missing. -/
  | one
  /-- Two continuation bytes are missing. -/
  | two
  /-- Three continuation bytes are missing. -/
  | three
  /-- After `E0`: the next byte starts at `A0`, which excludes overlong forms. -/
  | afterE0
  /-- After `ED`: the next byte ends at `9F`, which excludes surrogates. -/
  | afterED
  /-- After `F0`: the next byte starts at `90`, which excludes overlong forms. -/
  | afterF0
  /-- After `F4`: the next byte ends at `8F`, which excludes values above U+10FFFF. -/
  | afterF4
deriving DecidableEq, Repr

/-- Whether `b` lies between `lo` and `hi`. -/
def within (lo hi b : UInt8) : Bool := lo ≤ b && b ≤ hi

/-- The state after a byte that starts a character. -/
def State.lead (b : UInt8) : Option State :=
  if within 0x00 0x7F b then some .between
  else if within 0xC2 0xDF b then some .one
  else if b == 0xE0 then some .afterE0
  else if b == 0xED then some .afterED
  else if within 0xE1 0xEF b then some .two
  else if b == 0xF0 then some .afterF0
  else if within 0xF1 0xF3 b then some .three
  else if b == 0xF4 then some .afterF4
  else none

/-- The state after one more byte, or nothing when that byte cannot stand there. -/
def State.next : State → UInt8 → Option State
  | .between, b => State.lead b
  | .one, b => if within 0x80 0xBF b then some .between else none
  | .two, b => if within 0x80 0xBF b then some .one else none
  | .three, b => if within 0x80 0xBF b then some .two else none
  | .afterE0, b => if within 0xA0 0xBF b then some .one else none
  | .afterED, b => if within 0x80 0x9F b then some .one else none
  | .afterF0, b => if within 0x90 0xBF b then some .two else none
  | .afterF4, b => if within 0x80 0x8F b then some .two else none

/-- The state after a byte string. -/
def State.after : State → Bytes → Option State
  | s, [] => some s
  | s, b :: rest =>
    match s.next b with
    | some s' => s'.after rest
    | none => none

/-- Whether a byte string is well-formed UTF-8. -/
def valid (bytes : Bytes) : Bool := State.between.after bytes == some .between

/-- Whether a byte string can be continued to well-formed UTF-8. -/
def extendable (bytes : Bytes) : Bool := (State.between.after bytes).isSome

/-! ## 2. Decoding -/

/-- The character that stands for what cannot be read. -/
def replacement : Char := '�'

/-- The bits that a byte adds to the character being read. -/
def State.bits (s : State) (code : Nat) (b : UInt8) : Nat :=
  match s with
  | .between =>
    if b < 0x80 then b.toNat
    else if b < 0xE0 then b.toNat - 0xC0
    else if b < 0xF0 then b.toNat - 0xE0
    else b.toNat - 0xF0
  | _ => code * 64 + (b.toNat - 0x80)

/-- A decoder at work: the state, the bits of the unfinished character, and the characters so far,
last first. -/
structure Decoder where
  state : State := .between
  code : Nat := 0
  text : List Char := []

namespace Decoder

/-- Read a byte that starts a character, or report it as unreadable. -/
def start (b : UInt8) (text : List Char) : Decoder :=
  match State.lead b with
  | some .between => ⟨.between, 0, Char.ofNat b.toNat :: text⟩
  | some s => ⟨s, State.between.bits 0 b, text⟩
  | none => ⟨.between, 0, replacement :: text⟩

/-- Read one byte.  A byte that cannot continue the unfinished character ends it as unreadable and
starts afresh. -/
def feed (d : Decoder) (b : UInt8) : Decoder :=
  match d.state with
  | .between => start b d.text
  | s =>
    match s.next b with
    | some .between => ⟨.between, 0, Char.ofNat (s.bits d.code b) :: d.text⟩
    | some s' => ⟨s', s.bits d.code b, d.text⟩
    | none => start b (replacement :: d.text)

/-- The text read, an unfinished character at the end counting as unreadable. -/
def finish (d : Decoder) : List Char :=
  match d.state with
  | .between => d.text.reverse
  | _ => (replacement :: d.text).reverse

end Decoder

/-- The text of a byte string, one replacement character for each longest piece that is the
beginning of no character. -/
def decodeLossy (bytes : Bytes) : String :=
  String.ofList (bytes.foldl Decoder.feed {}).finish

/-- The text of a well-formed byte string. -/
def decode? (bytes : Bytes) : Option String :=
  if valid bytes then some (decodeLossy bytes) else none

/-- The bytes of a text. -/
def encode (text : String) : Bytes := text.toList.flatMap String.utf8EncodeChar

/-- The number of bytes of a text. -/
def length (text : String) : Nat := (encode text).length

end Utf8

end FactGraph
