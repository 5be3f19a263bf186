import HeaderAtlas.Text.Basic
/-!
# Moments

The time at which a record was made, in Coordinated Universal Time, and what a calendar says of it. The calendar
repeats after four hundred years; a year is taken to begin in March, so that the leap day is its last and the lengths
of the months before it are the same in every year.
-/

set_option autoImplicit false

namespace HeaderAtlas

namespace Journal

/-- A day of the calendar, with its place in the year, from which the weeks of the year are counted. -/
structure Date where
  year : Nat
  month : Nat
  day : Nat
  /-- The number of days of the year before this one. -/
  yearDay : Nat
  deriving DecidableEq, Repr

def isLeapYear (year : Nat) : Bool := year % 4 == 0 && (year % 100 != 0 || year % 400 == 0)

/-- The date a number of days after the first of January 1970. All of it is division: five months from March on have
153 days, and so do the five after them. -/
def Date.ofDays (days : Nat) : Date :=
  -- Days from the first of March of the year zero.
  let z := days + 719468
  let era := z / 146097
  let inEra := z % 146097
  let year := (inEra - inEra / 1460 + inEra / 36524 - inEra / 146096) / 365
  let inYear := inEra - (365 * year + year / 4 - year / 100)
  let fromMarch := (5 * inYear + 2) / 153
  let month := if fromMarch < 10 then fromMarch + 3 else fromMarch - 9
  let civilYear := era * 400 + year + if month ≤ 2 then 1 else 0
  { year := civilYear
    month := month
    day := inYear - (153 * fromMarch + 2) / 5 + 1
    yearDay := if month ≤ 2 then inYear - 306 else inYear + 59 + (isLeapYear civilYear).toNat }

/-- A moment, as the number of seconds since the beginning of 1970. -/
structure Moment where
  seconds : Nat
  deriving DecidableEq, Repr

namespace Moment

def days (m : Moment) : Nat := m.seconds / 86400

def date (m : Moment) : Date := Date.ofDays m.days

/-- The day of the week; Sunday is zero. The first of January 1970 was a Thursday. -/
def weekday (m : Moment) : Nat := (m.days + 4) % 7

/-- The number of days since Monday, for the weeks that begin on a Monday. -/
def sinceMonday (m : Moment) : Nat := (m.days + 3) % 7

def hour (m : Moment) : Nat := m.seconds / 3600 % 24

/-- The hour on a clock of twelve hours, which has no zero. -/
def clockHour (m : Moment) : Nat := if m.hour % 12 = 0 then 12 else m.hour % 12

def minute (m : Moment) : Nat := m.seconds / 60 % 60

def second (m : Moment) : Nat := m.seconds % 60

/-- The Thursday of the week, which begins on Monday. A week belongs to the year of its Thursday. -/
def thursday (m : Moment) : Date := Date.ofDays (m.days + 3 - m.sinceMonday)

end Moment

example : Date.ofDays 0 = ⟨1970, 1, 1, 0⟩ := by decide

example : Date.ofDays 11016 = ⟨2000, 2, 29, 59⟩ := by decide

example : Date.ofDays 11017 = ⟨2000, 3, 1, 60⟩ := by decide

end Journal

end HeaderAtlas
