import FactGraph.Decimal

/-!
# Moments

A moment is a number of nanoseconds since the start of 1970, in universal time.  Dates follow the
Gregorian calendar; counting years from March puts the leap day at the end, so that the day of the
year is a linear function of the month.
-/

namespace FactGraph

/-- A moment in universal time, in nanoseconds since the start of 1970. -/
structure Moment where
  nanoseconds : Int
deriving DecidableEq, Repr

namespace Moment

/-- Whether a year has a leap day. -/
def isLeap (year : Nat) : Bool := year % 4 = 0 && (year % 100 ≠ 0 || year % 400 = 0)

/-- The number of days of a month. -/
def daysInMonth (year month : Nat) : Nat :=
  if month = 2 then (if isLeap year then 29 else 28)
  else if month = 4 || month = 6 || month = 9 || month = 11 then 30
  else 31

/-- The number of days from the start of 1970 to a date. -/
def daysOfDate (year month day : Nat) : Int :=
  let y : Int := if month ≤ 2 then (year : Int) - 1 else year
  let shifted : Int := ((month : Int) + 9) % 12
  let era := y.fdiv 400
  let ofEra := y - era * 400
  let ofYear := (153 * shifted + 2) / 5 + (day : Int) - 1
  era * 146097 + (ofEra * 365 + ofEra / 4 - ofEra / 100 + ofYear) - 719468

/-- The date of a number of days from the start of 1970: year, month and day. -/
def dateOfDays (days : Int) : Int × Nat × Nat :=
  let z := days + 719468
  let era := z.fdiv 146097
  let ofEra := z - era * 146097
  let year := (ofEra - ofEra / 1460 + ofEra / 36524 - ofEra / 146096) / 365
  let ofYear := ofEra - (365 * year + year / 4 - year / 100)
  let shifted := (5 * ofYear + 2) / 153
  let day := ofYear - (153 * shifted + 2) / 5 + 1
  let month := if shifted < 10 then shifted + 3 else shifted - 9
  (year + era * 400 + (if month ≤ 2 then 1 else 0), month.toNat, day.toNat)

/-- The moment of a date and a time of day, if there is such a date. -/
def ofCivil? (year month day hour minute second : Nat) : Option Moment :=
  if 1 ≤ month ∧ month ≤ 12 ∧ 1 ≤ day ∧ day ≤ daysInMonth year month ∧ hour < 24 ∧ minute < 60 ∧
      second < 60 then
    let days := daysOfDate year month day
    some ⟨(days * 86400 + ((hour * 60 + minute) * 60 + second : Nat)) * 1000000000⟩
  else none

/-- A number with leading zeros. -/
def padded (width n : Nat) : String :=
  let text := Decimal.digitText n
  Decimal.zeros (width - text.length) ++ text

/-- A fraction of a second in nanoseconds: nothing for a whole second, else as many groups of three
digits as it takes. -/
def fraction (nanoseconds : Nat) : String :=
  if nanoseconds = 0 then ""
  else if nanoseconds % 1000000 = 0 then "." ++ padded 3 (nanoseconds / 1000000)
  else if nanoseconds % 1000 = 0 then "." ++ padded 6 (nanoseconds / 1000)
  else "." ++ padded 9 nanoseconds

/-- A year with at least four digits, signed outside 0 to 9999. -/
def yearText (year : Int) : String :=
  if year < 0 then "-" ++ padded 4 year.natAbs
  else if 9999 < year then "+" ++ padded 4 year.natAbs
  else padded 4 year.natAbs

/-- The date and time of a moment, followed by the name of the zone. -/
def text (zone : String) (m : Moment) : String :=
  let seconds := m.nanoseconds.fdiv 1000000000
  let nanoseconds := (m.nanoseconds - seconds * 1000000000).toNat
  let days := seconds.fdiv 86400
  let ofDay := (seconds - days * 86400).toNat
  let (year, month, day) := dateOfDays days
  yearText year ++ "-" ++ padded 2 month ++ "-" ++ padded 2 day ++ "T" ++
    padded 2 (ofDay / 3600) ++ ":" ++ padded 2 (ofDay / 60 % 60) ++ ":" ++ padded 2 (ofDay % 60) ++
    fraction nanoseconds ++ zone

end Moment

end FactGraph
