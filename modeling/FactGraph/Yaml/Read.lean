import FactGraph.Yaml.Node

/-!
# Typed values in documents

Numbers, truth values and nothing are written as plain scalars, so that a quoted scalar is always
text; text and names are any scalar.  Where a list is expected, nothing at all is an empty list.
-/

namespace FactGraph

namespace Yaml

/-! ## 1. Texts of numbers -/

/-- The value of a digit in bases up to sixteen. -/
def digit? (base : Nat) (c : Char) : Option Nat := (hexDigit? c).filter (· < base)

/-- The value of digits; there is at least one. -/
def digits? (base : Nat) : List Char → Option Nat
  | [] => none
  | cs => cs.foldlM (fun n c => (digit? base c).map (base * n + ·)) 0

/-- A number in decimal without needless zeros in front, or in another base behind its mark. -/
def unsigned? : List Char → Option Nat
  | '0' :: 'x' :: rest => digits? 16 rest
  | '0' :: 'o' :: rest => digits? 8 rest
  | '0' :: 'b' :: rest => digits? 2 rest
  | '0' :: c :: rest => if (c :: rest).all Char.isDigit then none else digits? 10 (c :: rest)
  | cs => digits? 10 cs

/-- A number, with or without a plus sign. -/
def natural? (text : String) : Option Nat :=
  match text.toList with
  | '+' :: rest => unsigned? rest
  | cs => unsigned? cs

/-- A truth value. -/
def boolean? (text : String) : Option Bool :=
  if ["true", "True", "TRUE"].contains text then some true
  else if ["false", "False", "FALSE"].contains text then some false
  else none

/-- Whether a text stands for nothing. -/
def isNull (text : String) : Bool := ["", "~", "null", "Null", "NULL"].contains text

/-! ## 2. Values of nodes -/

namespace Node

/-- The tag of numbers. -/
def numberTag : String := "tag:yaml.org,2002:int"

/-- The tag of truth values. -/
def booleanTag : String := "tag:yaml.org,2002:bool"

/-- The tag of nothing. -/
def nullTag : String := "tag:yaml.org,2002:null"

/-- The text of a scalar that may stand for something else than text: it is plain, or a literal block
with the tag of what is expected. -/
def symbol? (expected : String) : Node → Option String
  | .scalar .plain _ text => some text
  | .scalar .literal tag text => if tag = some expected then some text else none
  | _ => none

/-- The text of a scalar. -/
def text? : Node → Option String
  | .scalar _ _ text => some text
  | _ => none

/-- A number below a bound. -/
def naturalBelow? (bound : Nat) (n : Node) : Option Nat :=
  ((n.symbol? numberTag).bind Yaml.natural?).filter (· < bound)

/-- A truth value. -/
def boolean? (n : Node) : Option Bool := (n.symbol? booleanTag).bind Yaml.boolean?

/-- Whether a node stands for nothing; none if it claims to and does not. -/
def absent? : Node → Option Bool
  | .scalar .plain none text => some (isNull text)
  | .scalar .plain (some tag) text =>
    if tag = nullTag then (if text ≠ "" ∧ isNull text then some true else none) else some false
  | _ => some false

/-- Nothing, or a value. -/
def optional? {α : Type} (value? : Node → Option α) (n : Node) : Option (Option α) := do
  if ← n.absent? then return none else return some (← value? n)

/-- A list of texts. -/
def texts? : Node → Option (List String)
  | .sequence items => items.mapM text?
  | .scalar .plain _ "" => some []
  | _ => none

/-- The entries of a mapping with texts as keys; nothing at all is an empty mapping. -/
def entries? : Node → Option (List (String × Node))
  | .mapping entries => entries.mapM fun (k, v) => k.text?.map (·, v)
  | .scalar .plain _ "" => some []
  | _ => none

end Node

/-! ## 3. Writing texts -/

/-- A digit of an escape. -/
def hexDigit (n : Nat) : Char := Nat.digitChar (n % 16)

/-- A character between quotation marks: itself if it is a plain one, else an escape by its code. -/
def quoteChar (c : Char) : List Char :=
  let n := c.toNat
  if 0x20 ≤ n ∧ n ≤ 0x7E ∧ c ≠ quotationMark ∧ c ≠ '\\' then [c]
  else
    '\\' :: 'U' :: [hexDigit (n / 0x10000000), hexDigit (n / 0x1000000), hexDigit (n / 0x100000),
      hexDigit (n / 0x10000), hexDigit (n / 0x1000), hexDigit (n / 0x100), hexDigit (n / 0x10), hexDigit n]

/-- A text as a scalar in quotation marks on one line. -/
def quote (text : String) : String :=
  String.ofList (quotationMark :: text.toList.flatMap quoteChar ++ [quotationMark])

end Yaml

end FactGraph
