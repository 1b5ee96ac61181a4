import FactGraph.Text.Utf8

/-!
# Percent sequences

Inside a URI a few bytes are written as `%XX`: the percent sign itself, `!` (it separates an archive
from its entry), control bytes, and every byte that is not ASCII.  Writing is injective, and reading
undoes it.  Reading is forgiving: a `%` that two hexadecimal digits do not follow stands for itself.
-/

namespace FactGraph

namespace Percent

/-- Whether a byte is written as a percent sequence. -/
def reserved (b : UInt8) : Bool :=
  b == 0x25 || b == 0x21 || b < 0x20 || 0x7F ≤ b

/-- The hexadecimal digit of a number below sixteen, upper case. -/
def hexDigit (n : Nat) : Char :=
  if n < 10 then Char.ofNat (0x30 + n) else Char.ofNat (0x37 + n)

/-- The value of a hexadecimal digit, either case. -/
def hexValue? (b : UInt8) : Option Nat :=
  if 0x30 ≤ b && b ≤ 0x39 then some (b.toNat - 0x30)
  else if 0x41 ≤ b && b ≤ 0x46 then some (b.toNat - 0x37)
  else if 0x61 ≤ b && b ≤ 0x66 then some (b.toNat - 0x57)
  else none

/-- The characters that stand for one byte. -/
def escapeByte (b : UInt8) : List Char :=
  if reserved b then ['%', hexDigit (b.toNat / 16), hexDigit (b.toNat % 16)]
  else [Char.ofNat b.toNat]

/-- Write a text with its reserved bytes as percent sequences. -/
def escape (text : String) : String :=
  String.ofList ((Utf8.encode text).flatMap escapeByte)

/-- Replace every percent sequence by the byte it stands for. -/
def unescapeBytes : Bytes → Bytes
  | [] => []
  | 0x25 :: hi :: lo :: rest =>
    match hexValue? hi, hexValue? lo with
    | some h, some l => UInt8.ofNat (16 * h + l) :: unescapeBytes rest
    | _, _ => 0x25 :: unescapeBytes (hi :: lo :: rest)
  | b :: rest => b :: unescapeBytes rest

/-- Read a text with percent sequences. -/
def unescape (text : String) : String :=
  Utf8.decodeLossy (unescapeBytes (Utf8.encode text))

end Percent

end FactGraph
