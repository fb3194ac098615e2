/-
**Dates and times of the proleptic calendar.**

The time at which a header is generated is a date of the proleptic Gregorian calendar with a time
of day, which may be a leap second.

Main definitions:

* `VariadicMacros.Timestamp` — an existing date and time, and `Timestamp.of?`;
* `VariadicMacros.Timestamp.text` — such as `Jan 01 2024 00:00:00`.
-/

set_option autoImplicit false

namespace VariadicMacros

namespace Calendar

/-- Whether a year has a leap day. -/
def isLeap (year : Int) : Bool := year % 4 == 0 && (year % 100 != 0 || year % 400 == 0)

/-- The number of days of a month; there is none outside of one to twelve. -/
def daysIn (year month : Int) : Int :=
  if month = 2 then if isLeap year then 29 else 28
  else if month = 4 ∨ month = 6 ∨ month = 9 ∨ month = 11 then 30
  else if 1 ≤ month ∧ month ≤ 12 then 31
  else 0

/-- The short names of the months. -/
def monthNames : List String :=
  ["Jan", "Feb", "Mar", "Apr", "May", "Jun", "Jul", "Aug", "Sep", "Oct", "Nov", "Dec"]

/-- The first and the last year of the calendar. -/
def firstYear : Int := -262143

/-- The last year of the calendar. -/
def lastYear : Int := 262142

end Calendar

open Calendar

/-- A date and a time of day.  A leap second is second 59 with more than a second's worth of
nanoseconds. -/
structure Timestamp where
  year : Int
  month : Nat
  day : Nat
  hour : Nat
  minute : Nat
  second : Nat
  nanosecond : Nat
  deriving DecidableEq, Repr

namespace Timestamp

/-- The date and time with the given parts, if there is one. -/
def of? (year month day hour minute second nanosecond : Int) : Option Timestamp :=
  if firstYear ≤ year ∧ year ≤ lastYear ∧ 1 ≤ day ∧ day ≤ daysIn year month ∧
      0 ≤ hour ∧ hour < 24 ∧ 0 ≤ minute ∧ minute < 60 ∧ 0 ≤ second ∧ second < 60 ∧
      0 ≤ nanosecond ∧ (nanosecond < 1000000000 ∨ second = 59 ∧ nanosecond < 2000000000) then
    some ⟨year, month.toNat, day.toNat, hour.toNat, minute.toNat, second.toNat, nanosecond.toNat⟩
  else none

/-- Decimal digits with zeros before them up to a width. -/
def padded (width n : Nat) : String :=
  let digits := toString n
  String.ofList (List.replicate (width - digits.length) '0') ++ digits

/-- A year of four digits as it is, and any other year with its sign. -/
def yearText (year : Int) : String :=
  if 0 ≤ year ∧ year ≤ 9999 then padded 4 year.toNat
  else if year < 0 then "-" ++ padded 4 year.natAbs
  else "+" ++ padded 4 year.natAbs

/-- The second as it is shown, 60 for a leap second. -/
def shownSecond (t : Timestamp) : Nat := t.second + t.nanosecond / 1000000000

/-- The time of day. -/
def timeText (t : Timestamp) : String :=
  padded 2 t.hour ++ ":" ++ padded 2 t.minute ++ ":" ++ padded 2 t.shownSecond

/-- Month, day, year and time of day. -/
def text (t : Timestamp) : String :=
  monthNames.getD (t.month - 1) "" ++ " " ++ padded 2 t.day ++ " " ++ yearText t.year ++ " " ++
    t.timeText

/-- Date and time to the microsecond in the form of log files. -/
def logText (t : Timestamp) : String :=
  yearText t.year ++ "-" ++ padded 2 t.month ++ "-" ++ padded 2 t.day ++ "T" ++ t.timeText ++
    "." ++ padded 6 (t.nanosecond % 1000000000 / 1000) ++ "Z"

end Timestamp

end VariadicMacros
