import Covenant.Text.Basic

/-!
Moments of the calendar.

A moment is a date of the Gregorian calendar in the years 1 to 9999 with a time of
day and, if known, the offset of its clock from universal time. Whether the parts
name a moment is decided by `Moment.Valid`.
-/

namespace Covenant

/-- Parts of a moment: its date, its time to the microsecond, and the offset of its
clock in seconds, if known. -/
structure Moment where
  year : Int := 1970
  month : Int := 1
  day : Int := 1
  hour : Int := 0
  minute : Int := 0
  second : Int := 0
  microsecond : Int := 0
  offset : Option Int := none
deriving DecidableEq, Repr, Inhabited

/-- A time zone: the offset that its clocks show at a local time, in seconds. -/
structure Zone where
  offsetAt : Moment → Int := fun _ => 0

namespace Calendar

/-- Whether a year has a 29th of February. -/
def isLeap (year : Int) : Bool :=
  year % 4 == 0 && (year % 100 != 0 || year % 400 == 0)

def daysIn (year month : Int) : Int :=
  if month = 2 then if isLeap year then 29 else 28
  else if month = 4 ∨ month = 6 ∨ month = 9 ∨ month = 11 then 30 else 31

/-- The number of days from the first day of year 1 to the first day of a year. -/
def daysBefore (year : Int) : Int :=
  let y := year - 1
  y * 365 + y / 4 - y / 100 + y / 400

/-- The day of the week on which a year's first day falls: one for Monday to seven
for Sunday. -/
def firstWeekday (year : Int) : Int :=
  daysBefore year % 7 + 1

end Calendar

namespace Moment

open Calendar

/-- Whether the year is in range. -/
def YearInRange (m : Moment) : Prop :=
  1 ≤ m.year ∧ m.year ≤ 9999

instance (m : Moment) : Decidable m.YearInRange :=
  inferInstanceAs (Decidable (_ ∧ _))

/-- Whether the day exists in the month. -/
def DayInRange (m : Moment) : Prop :=
  1 ≤ m.day ∧ m.day ≤ daysIn m.year m.month

instance (m : Moment) : Decidable m.DayInRange :=
  inferInstanceAs (Decidable (_ ∧ _))

/-- Whether the time exists in a day. -/
def TimeInRange (m : Moment) : Prop :=
  (0 ≤ m.hour ∧ m.hour ≤ 23) ∧ (0 ≤ m.minute ∧ m.minute ≤ 59) ∧ (0 ≤ m.second ∧ m.second ≤ 59)
    ∧ (0 ≤ m.microsecond ∧ m.microsecond ≤ 999999)

instance (m : Moment) : Decidable m.TimeInRange :=
  inferInstanceAs (Decidable (_ ∧ _))

/-- Whether the parts name a moment. -/
def Valid (m : Moment) : Prop :=
  m.YearInRange ∧ (1 ≤ m.month ∧ m.month ≤ 12) ∧ m.DayInRange ∧ m.TimeInRange

instance (m : Moment) : Decidable m.Valid :=
  inferInstanceAs (Decidable (_ ∧ _))

/-- The moment a day later; there is none after the last day of year 9999. -/
def tomorrow? (m : Moment) : Option Moment :=
  if m.day < daysIn m.year m.month then some { m with day := m.day + 1 }
  else if m.month < 12 then some { m with month := m.month + 1, day := 1 }
  else if m.year < 9999 then some { m with year := m.year + 1, month := 1, day := 1 }
  else none

def plusDays? (m : Moment) : Nat → Option Moment
  | 0 => some m
  | n + 1 => (m.tomorrow?).bind fun m => m.plusDays? n

/-! ### Text -/

/-- A number in a field of the given width; numbers of moments are not negative. -/
def digits (width : Nat) (n : Int) : String :=
  Text.padded width n.toNat

def offsetText (seconds : Int) : String :=
  let n := seconds.natAbs
  (if seconds < 0 then "-" else "+") ++ Text.padded 2 (n / 3600) ++ ":"
    ++ Text.padded 2 (n % 3600 / 60)

/-- The offset of a clock; one on universal time is marked `Z`, and seconds stand only
where there are any. -/
def zoneText (s : Int) : String :=
  if s = 0 then "Z"
  else if s % 60 = 0 then offsetText s
  else offsetText s ++ ":" ++ Text.padded 2 (s.natAbs % 60)

/-- The text of a moment to the millisecond with its offset. -/
def text (m : Moment) : String :=
  digits 4 m.year ++ "-" ++ digits 2 m.month ++ "-" ++ digits 2 m.day ++ "T"
    ++ digits 2 m.hour ++ ":" ++ digits 2 m.minute ++ ":" ++ digits 2 m.second ++ "."
    ++ digits 3 (m.microsecond / 1000)
    ++ (match m.offset with
        | none => ""
        | some s => zoneText s)

end Moment

end Covenant
