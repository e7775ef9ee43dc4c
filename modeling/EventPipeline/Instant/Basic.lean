/-!
Instants in universal time, as calendar dates and times of day. A minute may have a sixty-first
second, which is written with number 60.
-/

namespace EventPipeline

/-- A day of the Gregorian calendar, continued into the past. -/
structure Date where
  year : Int
  month : Nat
  day : Nat
deriving DecidableEq, Repr

namespace Date

def isLeapYear (year : Int) : Bool :=
  year % 4 = 0 && (year % 100 ≠ 0 || year % 400 = 0)

def daysInMonth (year : Int) (month : Nat) : Nat :=
  match month with
  | 2 => if isLeapYear year then 29 else 28
  | 4 | 6 | 9 | 11 => 30
  | _ => 31

/-- The years that dates may be in. -/
def hasYear (d : Date) : Bool := -262143 ≤ d.year && d.year ≤ 262142

/-- Whether the calendar has the day. -/
def isValid (d : Date) : Bool :=
  d.hasYear && 1 ≤ d.month && d.month ≤ 12 && 1 ≤ d.day && d.day ≤ daysInMonth d.year d.month

def next (d : Date) : Date :=
  if d.day < daysInMonth d.year d.month then { d with day := d.day + 1 }
  else if d.month < 12 then ⟨d.year, d.month + 1, 1⟩
  else ⟨d.year + 1, 1, 1⟩

def previous (d : Date) : Date :=
  if 1 < d.day then { d with day := d.day - 1 }
  else if 1 < d.month then ⟨d.year, d.month - 1, daysInMonth d.year (d.month - 1)⟩
  else ⟨d.year - 1, 12, 31⟩

example : next ⟨2024, 2, 28⟩ = ⟨2024, 2, 29⟩ := by decide
example : previous ⟨1900, 3, 1⟩ = ⟨1900, 2, 28⟩ := by decide

end Date

structure Instant where
  date : Date
  /-- Minutes since the start of the day. -/
  minute : Nat
  second : Nat
  nanosecond : Nat
deriving DecidableEq, Repr

namespace Instant

/-- A day, in minutes. -/
def dayMinutes : Int := 1440

/-- The instant in universal time of a time that is `offset` minutes ahead, less than a day. -/
def utc? (there : Instant) (offset : Int) : Option Instant :=
  let minute := (there.minute : Int) - offset
  let date :=
    if minute < 0 then there.date.previous
    else if dayMinutes ≤ minute then there.date.next
    else there.date
  if date.hasYear then some { there with date, minute := (minute % dayMinutes).toNat } else none

end Instant

end EventPipeline
