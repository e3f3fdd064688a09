/-
Timestamps.

A clock reading counts nanoseconds from the beginning of 1970. It is written as
a date and a time of day in UTC with three places after the second; what is
finer is cut off. The calendar counts years from March, so that the day that a
leap year adds is the last one of its year.
-/
import Provenance.Text.Basic

set_option autoImplicit false

namespace Provenance.Timestamp

/-- A date of the Gregorian calendar. -/
structure Date where
  year : Int
  month : Nat
  day : Nat
  deriving DecidableEq, Repr

/-- The date a number of days after the first of January 1970. -/
def dateOfDays (days : Int) : Date :=
  let shifted := days + 719468
  let era := shifted.fdiv 146097
  let dayOfEra := (shifted.fmod 146097).toNat
  let yearOfEra := (dayOfEra - dayOfEra / 1460 + dayOfEra / 36524 - dayOfEra / 146096) / 365
  let dayOfYear := dayOfEra - (365 * yearOfEra + yearOfEra / 4 - yearOfEra / 100)
  let monthFromMarch := (5 * dayOfYear + 2) / 153
  let day := dayOfYear - (153 * monthFromMarch + 2) / 5 + 1
  let month := if monthFromMarch < 10 then monthFromMarch + 3 else monthFromMarch - 9
  let year := Int.ofNat yearOfEra + era * 400
  ⟨if month ≤ 2 then year + 1 else year, month, day⟩

/-- A number with leading zeros up to a width. -/
def padded (width n : Nat) : Text := Text.zeroPadded width (Text.ofNat n)

/-- The date and time of a clock reading, in UTC. -/
def ofReading (nanoseconds : Int) : Text :=
  let milliseconds := nanoseconds.fdiv 1000000
  let date := dateOfDays (milliseconds.fdiv 86400000)
  let ofDay := (milliseconds.fmod 86400000).toNat
  padded 4 date.year.toNat ++ '-' :: padded 2 date.month ++ '-' :: padded 2 date.day
    ++ 'T' :: padded 2 (ofDay / 3600000) ++ ':' :: padded 2 (ofDay / 60000 % 60)
    ++ ':' :: padded 2 (ofDay / 1000 % 60) ++ '.' :: padded 3 (ofDay % 1000) ++ ['Z']

end Provenance.Timestamp
