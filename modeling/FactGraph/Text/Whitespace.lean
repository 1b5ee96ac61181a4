/-!
# White space

The characters with the property `White_Space`.
-/

namespace FactGraph

namespace Whitespace

/-- The code points of white space, as ranges. -/
def ranges : List (Nat × Nat) :=
  [(0x09, 0x0D), (0x20, 0x20), (0x85, 0x85), (0xA0, 0xA0), (0x1680, 0x1680), (0x2000, 0x200A),
   (0x2028, 0x2029), (0x202F, 0x202F), (0x205F, 0x205F), (0x3000, 0x3000)]

/-- Whether a character is white space. -/
def holds (c : Char) : Bool := ranges.any fun (lo, hi) => lo ≤ c.toNat && c.toNat ≤ hi

/-- Whether a text has nothing but white space. -/
def onlyIn (text : String) : Bool := text.toList.all holds

end Whitespace

end FactGraph
