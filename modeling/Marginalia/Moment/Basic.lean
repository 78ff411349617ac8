import Marginalia.Text.Basic

/-!
# Moments

A moment is a date and a time of day in UTC, with nanoseconds.  The second may
be the sixtieth, for a leap second.  It is written with a `T` between date and
time, with the fewest groups of three decimals that are exact, and with a `Z` at
the end.
-/

namespace Marginalia

/-- A day of the proleptic Gregorian calendar. -/
structure Date where
  year : Int
  month : Nat
  day : Nat
  deriving DecidableEq, Repr

namespace Date

/-- The years of which a twenty-ninth of February belongs. -/
def isLeapYear (year : Int) : Bool :=
  year % 4 == 0 && (year % 100 != 0 || year % 400 == 0)

def daysOf (year : Int) : (month : Nat) → Nat
  | 2 => if isLeapYear year then 29 else 28
  | 4 => 30
  | 6 => 30
  | 9 => 30
  | 11 => 30
  | _ => 31

def firstYear : Int :=
  -262143

def lastYear : Int :=
  262142

def isValid (d : Date) : Bool :=
  decide (firstYear ≤ d.year) && decide (d.year ≤ lastYear) && decide (1 ≤ d.month) &&
    decide (d.month ≤ 12) && decide (1 ≤ d.day) && decide (d.day ≤ daysOf d.year d.month)

def next (d : Date) : Date :=
  if d.day < daysOf d.year d.month then { d with day := d.day + 1 }
  else if d.month < 12 then ⟨d.year, d.month + 1, 1⟩
  else ⟨d.year + 1, 1, 1⟩

def previous (d : Date) : Date :=
  if 1 < d.day then { d with day := d.day - 1 }
  else if 1 < d.month then ⟨d.year, d.month - 1, daysOf d.year (d.month - 1)⟩
  else ⟨d.year - 1, 12, 31⟩

end Date

structure Moment where
  date : Date
  hour : Nat
  minute : Nat
  second : Nat
  nano : Nat
  deriving DecidableEq, Repr

namespace Moment

def isValid (m : Moment) : Bool :=
  m.date.isValid && decide (m.hour < 24) && decide (m.minute < 60) && decide (m.second ≤ 60) &&
    decide (m.nano < 1000000000)

/-- The moment some minutes earlier or later, less than a day. -/
def shift (m : Moment) (minutes : Int) : Moment :=
  let total : Int := m.hour * 60 + m.minute + minutes
  let date :=
    if total < 0 then m.date.previous else if 1440 ≤ total then m.date.next else m.date
  let inDay := (total % 1440).toNat
  { m with date, hour := inDay / 60, minute := inDay % 60 }

def padded (width n : Nat) : Text :=
  let digits := Text.ofNat n
  List.replicate (width - digits.length) '0' ++ digits

/-- A year: four digits, behind a sign when it has more or is negative. -/
def yearText (year : Int) : Text :=
  if year < 0 then '-' :: padded 4 year.natAbs
  else if 9999 < year then '+' :: padded 4 year.natAbs
  else padded 4 year.natAbs

/-- The decimals of a second, in the fewest groups of three that are exact. -/
def fractionText (nano : Nat) : Text :=
  if nano = 0 then []
  else if nano % 1000000 = 0 then '.' :: padded 3 (nano / 1000000)
  else if nano % 1000 = 0 then '.' :: padded 6 (nano / 1000)
  else '.' :: padded 9 nano

def toText (m : Moment) : Text :=
  yearText m.date.year ++ '-' :: padded 2 m.date.month ++ '-' :: padded 2 m.date.day ++
    'T' :: padded 2 m.hour ++ ':' :: padded 2 m.minute ++ ':' :: padded 2 m.second ++
    fractionText m.nano ++ ['Z']

end Moment

end Marginalia
