import FactGraph.Table
import FactGraph.Text.Split

/-!
# Property values

A property holds a structured value: null, a truth value, a number, a text, a list, or an object.
Integers and measured numbers are different kinds: `1` and `1.0` are different values, while `0.0`
and `-0.0` are the same one.  The fields of an object stand in ascending key order.
-/

namespace FactGraph

/-- A structured value. -/
inductive Value where
  | null
  | bool (b : Bool)
  | int (n : Int)
  | float (x : Float)
  | str (text : String)
  | arr (items : List Value)
  | obj (fields : List (String × Value))
deriving Inhabited

namespace Value

/-- The object with the given fields; of two fields with one key the later stays. -/
def object (fields : List (String × Value)) : Value :=
  .obj (fields.foldl (fun rows field => Table.place field.1 field.2 rows) [])

/-- The field of an object. -/
def field? (v : Value) (key : String) : Option Value :=
  match v with
  | .obj fields => Table.find key fields
  | _ => none

/-- The text of a textual value. -/
def text? : Value → Option String
  | .str text => some text
  | _ => none

/-- Whether a value is null. -/
def isNull : Value → Bool
  | .null => true
  | _ => false

/-- A natural number below `2^64`. -/
def word? : Value → Option Nat
  | .int n => if 0 ≤ n ∧ n.toNat < Nat.pow 2 64 then some n.toNat else none
  | _ => none

mutual

/-- Whether two values are the same. -/
def same : Value → Value → Bool
  | .null, .null => true
  | .bool a, .bool b => a == b
  | .int a, .int b => a == b
  | .float a, .float b => a == b
  | .str a, .str b => a == b
  | .arr as, .arr bs => sameItems as bs
  | .obj as, .obj bs => sameFields as bs
  | _, _ => false

/-- Whether two lists of values are the same. -/
def sameItems : List Value → List Value → Bool
  | [], [] => true
  | a :: as, b :: bs => same a b && sameItems as bs
  | _, _ => false

/-- Whether two lists of fields are the same. -/
def sameFields : List (String × Value) → List (String × Value) → Bool
  | [], [] => true
  | (k, a) :: as, (l, b) :: bs => k == l && same a b && sameFields as bs
  | _, _ => false

end

instance : BEq Value := ⟨same⟩

mutual

/-- Change every measured number inside a value. -/
def mapFloat (f : Float → Float) : Value → Value
  | .float x => .float (f x)
  | .arr items => .arr (mapFloatItems f items)
  | .obj fields => .obj (mapFloatFields f fields)
  | v => v

/-- Change every measured number inside a list of values. -/
def mapFloatItems (f : Float → Float) : List Value → List Value
  | [] => []
  | v :: rest => mapFloat f v :: mapFloatItems f rest

/-- Change every measured number inside the values of fields. -/
def mapFloatFields (f : Float → Float) : List (String × Value) → List (String × Value)
  | [] => []
  | (k, v) :: rest => (k, mapFloat f v) :: mapFloatFields f rest

end

mutual

/-- How many lists and objects lie around the innermost part of a value. -/
def nesting : Value → Nat
  | .arr items => nestingItems items + 1
  | .obj fields => nestingFields fields + 1
  | _ => 0

/-- The deepest nesting among the items of a list. -/
def nestingItems : List Value → Nat
  | [] => 0
  | v :: rest => max (nesting v) (nestingItems rest)

/-- The deepest nesting among the values of fields. -/
def nestingFields : List (String × Value) → Nat
  | [] => 0
  | (_, v) :: rest => max (nesting v) (nestingFields rest)

end

/-! ## Looking inside -/

/-- The number that a run of decimal digits spells. -/
def digits? : List Char → Option Nat
  | [] => none
  | cs =>
    cs.foldl (fun acc c => do
      let n ← acc
      if c.isDigit then some (10 * n + (c.toNat - '0'.toNat)) else none) (some 0)

/-- A list index: decimal digits, a plus sign in front allowed, below `2^64`. -/
def index? (segment : String) : Option Nat := do
  let n ← match segment.toList with
    | '+' :: rest => digits? rest
    | cs => digits? cs
  if n < Nat.pow 2 64 then some n else none

/-- The part of a value that one segment of a path names. -/
def part? (v : Value) (segment : String) : Option Value :=
  match v with
  | .obj fields => Table.find segment fields
  | .arr items => do
    let n ← index? segment
    items[n]?
  | _ => none

/-- The part of a value that a list of segments names. -/
def at? (v : Value) : List String → Option Value
  | [] => some v
  | segment :: rest =>
    match v.part? segment with
    | some inner => inner.at? rest
    | none => none

end Value

/-- The properties of a node. -/
abbrev Properties := Table String Value

namespace Properties

/-- The segments of a dotted path. -/
def segments (path : String) : List String := Split.texts (· = '.') path

/-- The value at a path: a property of exactly that name, or else the property named by the first
segment, entered by the others. -/
def at? (properties : Properties) (path : String) : Option Value :=
  match properties.get? path with
  | some v => some v
  | none =>
    match segments path with
    | [] => none
    | head :: rest => do
      let v ← properties.get? head
      v.at? rest

end Properties

end FactGraph
