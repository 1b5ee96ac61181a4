/-!
# Decimals of measured values

A finite measured value has one shortest decimal: of the numbers with the fewest digits that lie
within its rounding interval, the nearest.  Everything is decided in exact arithmetic on natural
numbers.  Reading goes digit by digit with the precision of a machine word, as the text of a stored
value is read.
-/

namespace FactGraph

/-- The number `± digits · 10^exponent`. -/
structure Decimal where
  negative : Bool
  digits : Nat
  exponent : Int
deriving DecidableEq, Repr

namespace Decimal

/-! ## 1. The fewest digits -/

/-- A positive binary value `mantissa · 2^exponent` with the interval that rounds to it, all in
quarters of its last place. -/
structure Binary where
  lower : Nat
  value : Nat
  upper : Nat
  closed : Bool
  exponent : Int

/-- Decode the magnitude of a finite value; zero has no interval. -/
def Binary.ofFloat? (x : Float) : Option Binary :=
  let bits := x.toBits.toNat
  let field : Nat := bits / Nat.pow 2 52 % Nat.pow 2 11
  let fraction : Nat := bits % Nat.pow 2 52
  if field = 0 ∧ fraction = 0 then none
  else
    let mantissa := if field = 0 then fraction else Nat.pow 2 52 + fraction
    let exponent : Int := if field = 0 then -1076 else (field : Int) - 1077
    -- the gap below a power of two is half as wide
    let below := if fraction = 0 ∧ 1 < field then 1 else 2
    some ⟨4 * mantissa - below, 4 * mantissa, 4 * mantissa + 2, mantissa % 2 = 0, exponent⟩

/-- The number of decimal digits of a positive number; none for zero. -/
def digitCount (n : Nat) : Nat := if n = 0 then 0 else (Nat.toDigits 10 n).length

/-- The exponent of the leading digit of `num / den`. -/
def leading (num den : Nat) : Int :=
  if den ≤ num then (digitCount (num / den) : Int) - 1
  else -(digitCount ((den - 1) / num) : Int)

/-- The power of ten, split into numerator and denominator. -/
def tenPower (e : Int) : Nat × Nat :=
  if 0 ≤ e then (Nat.pow 10 e.toNat, 1) else (1, Nat.pow 10 (-e).toNat)

/-- The power of two, split into numerator and denominator. -/
def twoPower (e : Int) : Nat × Nat :=
  if 0 ≤ e then (Nat.pow 2 e.toNat, 1) else (1, Nat.pow 2 (-e).toNat)

/-- The multiple of `10^e` within the interval that is nearest to the value, an even one on a
tie. -/
def Binary.nearest? (b : Binary) (e : Int) : Option Nat :=
  let (p, q) := twoPower b.exponent
  let (r, s) := tenPower e
  -- compare `d · r / s` with `v · p / q`
  let unit := r * q
  let scale := p * s
  let inside (d : Nat) : Bool :=
    if b.closed then b.lower * scale ≤ d * unit && d * unit ≤ b.upper * scale
    else b.lower * scale < d * unit && d * unit < b.upper * scale
  let floor := b.value * scale / unit
  let rest := b.value * scale - floor * unit
  let roundUp := unit < 2 * rest || (unit == 2 * rest && floor % 2 == 1)
  match inside floor, inside (floor + 1) with
  | true, true => some (if roundUp then floor + 1 else floor)
  | true, false => some floor
  | false, true => some (floor + 1)
  | false, false => none

/-- The first hit on grids of falling power of ten. -/
def Binary.search (b : Binary) : Nat → Int → Nat × Int
  | 0, e => (b.value, e)
  | fuel + 1, e =>
    match b.nearest? e with
    | some d => (d, e)
    | none => b.search fuel (e - 1)

/-- The shortest decimal of a finite value. -/
def shortest (x : Float) : Decimal :=
  let negative := x.toBits ≥ 0x8000000000000000
  match Binary.ofFloat? x with
  | none => ⟨negative, 0, 0⟩
  | some b =>
    let (p, q) := twoPower b.exponent
    -- seventeen digits always identify a value, and one grid lies above the leading digit
    let (digits, exponent) := b.search 20 (leading (b.value * p) q + 1)
    ⟨negative, digits, exponent⟩

/-! ## 2. Text -/

/-- Zeros. -/
def zeros (n : Nat) : String := String.ofList (List.replicate n '0')

/-- The digits of a number. -/
def digitText (n : Nat) : String := String.ofList (Nat.toDigits 10 n)

/-- Write all digits positionally, without a point when there is no fraction. -/
def plain (d : Decimal) : String :=
  let sign := if d.negative then "-" else ""
  let text := digitText d.digits
  let point : Int := text.length + d.exponent
  if d.digits = 0 then sign ++ "0"
  else if 0 ≤ d.exponent then sign ++ text ++ zeros d.exponent.toNat
  else if 0 < point then
    let cut := point.toNat
    sign ++ String.ofList (text.toList.take cut) ++ "." ++ String.ofList (text.toList.drop cut)
  else sign ++ "0." ++ zeros (-point).toNat ++ text

/-- Write a number so that it is seen to be no integer: positionally from `0.00001` up to sixteen
integral digits, otherwise with an exponent. -/
def marked (d : Decimal) : String :=
  let sign := if d.negative then "-" else ""
  let text := digitText d.digits
  let point : Int := text.length + d.exponent
  if d.digits = 0 then sign ++ "0.0"
  else if 0 ≤ d.exponent ∧ point ≤ 16 then plain d ++ ".0"
  else if d.exponent < 0 ∧ -5 < point ∧ point ≤ 16 then plain d
  else
    let mantissa :=
      match text.toList with
      | [] => "0"
      | [c] => String.ofList [c]
      | c :: rest => String.ofList (c :: '.' :: rest)
    let e := point - 1
    let mark := if e < 0 then "e-" else "e+"
    sign ++ mantissa ++ mark ++ digitText e.natAbs

/-- Write a quotient with one place after the point, a half going to the even neighbour. -/
def onePlace (num den : Nat) : String :=
  let scaled := num * 10
  let floor := scaled / den
  let rest := scaled % den
  let tenths := if den < 2 * rest || (den == 2 * rest && floor % 2 == 1) then floor + 1 else floor
  digitText (tenths / 10) ++ "." ++ digitText (tenths % 10)

/-! ## 3. Reading -/

/-- The power of ten as a measured value. -/
def tenPowerFloat (n : Nat) : Float := Float.ofScientific 1 false n

/-- Scale a value by a power of ten, in steps that a table of powers up to `10^308` allows.  Nothing
when the result is too large. -/
def scale? : Nat → Float → Int → Option Float
  | 0, x, _ => some x
  | fuel + 1, x, e =>
    if e.natAbs ≤ 308 then
      if 0 ≤ e then
        let y := x * tenPowerFloat e.natAbs
        if y.isInf then none else some y
      else some (x / tenPowerFloat e.natAbs)
    else if x == 0 then some x
    else if 0 ≤ e then none
    else scale? fuel (x / tenPowerFloat 308) (e + 308)

/-- The measured value of a significand that fits a machine word and a power of ten. -/
def toFloat? (d : Decimal) : Option Float := do
  let x ← scale? (d.exponent.natAbs / 308 + 2) (UInt64.ofNat d.digits).toFloat d.exponent
  return if d.negative then -x else x

end Decimal

end FactGraph
