import FactGraph.Text.Utf8

/-!
# Code page 437

The character set of archive names that are not marked as UTF-8: ASCII, and one character for each
byte above it.
-/

namespace FactGraph

namespace CodePage437

/-- The characters of the bytes from 128 on. -/
def upper : Array Char :=
  ("ÇüéâäàåçêëèïîìÄÅÉæÆôöòûùÿÖÜ¢£¥₧ƒ" ++
  "áíóúñÑªº¿⌐¬½¼¡«»░▒▓│┤╡╢╖╕╣║╗╝╜╛┐" ++
  "└┴┬├─┼╞╟╚╔╩╦╠═╬╧╨╤╥╙╘╒╓╫╪┘┌█▄▌▐▀" ++
  "αßΓπΣσµτΦΘΩδ∞φε∩≡±≥≤⌠⌡÷≈°∙·√ⁿ²■ ").toList.toArray

/-- The character of a byte. -/
def char (b : UInt8) : Char :=
  if b < 128 then Char.ofNat b.toNat else upper.getD (b.toNat - 128) ' '

/-- The text of some bytes. -/
def decode (bytes : Bytes) : String := String.ofList (bytes.map char)

end CodePage437

end FactGraph
