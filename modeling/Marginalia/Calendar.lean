/-! Days and seconds since 1970 as dates and times of day in the Gregorian calendar, extended
over all years. -/
namespace Marginalia

/-- Decimal digits, filled up with zeros on the left to a least width. -/
def padded (width n : Nat) : String :=
  let digits := Nat.toDigits 10 n
  String.ofList (List.replicate (width - digits.length) '0' ++ digits)

/-- A day of the calendar; months and days count from one. -/
structure Date where
  year : Int
  month : Nat
  day : Nat
deriving DecidableEq

/-- A time of day. Second 60 is a leap second. -/
structure TimeOfDay where
  hour : Nat
  minute : Nat
  second : Nat
deriving DecidableEq

/-- A point in time as a local clock shows it: seconds since 1970 in universal time, nanoseconds
that reach a billion only within a leap second, and the offset of the clock in seconds. -/
structure Moment where
  seconds : Int
  nanoseconds : Nat
  offset : Int
deriving DecidableEq

namespace Date

/-- The date of a day counted from 1 January 1970. Years are taken to start in March, so that the
leap day is the last one, and are counted within cycles of 400 years or 146097 days. -/
def ofDays (days : Int) : Date :=
  let shifted := days + 719468
  let cycle := shifted / 146097
  let inCycle := (shifted % 146097).toNat
  let yearInCycle := (inCycle - inCycle / 1460 + inCycle / 36524 - inCycle / 146096) / 365
  let inYear := inCycle - (365 * yearInCycle + yearInCycle / 4 - yearInCycle / 100)
  let fromMarch := (5 * inYear + 2) / 153
  let month := if fromMarch < 10 then fromMarch + 3 else fromMarch - 9
  ⟨yearInCycle + cycle * 400 + (if month ≤ 2 then 1 else 0), month,
    inYear - (153 * fromMarch + 2) / 5 + 1⟩

/-- Years of four digits stand as they are, others have a sign before at least four digits. -/
def yearText (year : Int) : String :=
  if 0 ≤ year ∧ year ≤ 9999 then padded 4 year.toNat
  else (if year < 0 then "-" else "+") ++ padded 4 year.natAbs

/-- The text `DD/MM/YYYY`. -/
def text (d : Date) : String :=
  padded 2 d.day ++ "/" ++ padded 2 d.month ++ "/" ++ yearText d.year

end Date

namespace TimeOfDay

/-- The text `HH:MM:SS`. -/
def text (t : TimeOfDay) : String :=
  padded 2 t.hour ++ ":" ++ padded 2 t.minute ++ ":" ++ padded 2 t.second

end TimeOfDay

namespace Moment

/-- Seconds since 1970 on the local clock. -/
def clockSeconds (m : Moment) : Int := m.seconds + m.offset

def date (m : Moment) : Date := .ofDays (m.clockSeconds / 86400)

/-- The time on the local clock; a leap second is the second after the one it follows. -/
def time (m : Moment) : TimeOfDay :=
  let s := (m.clockSeconds % 86400).toNat
  ⟨s / 3600, s / 60 % 60, s % 60 + if 1000000000 ≤ m.nanoseconds then 1 else 0⟩

end Moment

end Marginalia
