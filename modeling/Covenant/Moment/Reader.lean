import Covenant.Decimal.Read
import Covenant.Moment.Basic

/-!
Reading moments in the international format.

A date is written by year, by year and month, by day, by week and weekday, or by the
day of the year, with or without hyphens; after one more character may follow a time
with an optional fraction and an offset. The hour 24 names the midnight at the end of
a day.
-/

namespace Covenant.Moment

open Calendar

/-- Why a text is no moment: it is malformed, or it lies after the last year. -/
inductive Refusal where
  | malformed
  | tooLate
deriving DecidableEq, Repr

/-- A number of at most `width` characters. -/
def number? (width : Nat) (cs : List Char) : Option Int :=
  Decimal.readInt? (String.ofList (cs.take width))

/-- A date by year, month and day, and what follows it. -/
def calendarDate? (cs : List Char) : Option (Moment × List Char) := do
  if cs.length < 4 then none
  let year ← number? 4 cs
  match cs.drop 4 with
  | [] => return ({ year }, [])
  | '-' :: cs =>
    if cs.length < 2 then none
    let month ← number? 2 cs
    match cs.drop 2 with
    | [] => return ({ year, month }, [])
    | '-' :: cs =>
      if cs.length < 2 then none
      let day ← number? 2 cs
      return ({ year, month, day }, cs.drop 2)
    | _ => none
  | cs =>
    if cs.length < 4 then none
    let month ← number? 2 cs
    let day ← number? 2 (cs.drop 2)
    return ({ year, month, day }, cs.drop 4)

/-- The first day of the first week of a year: the Monday of the week that holds the
fourth of January. -/
def firstMonday (year : Int) : Moment :=
  let shift := 1 - firstWeekday year
  if firstWeekday year ≤ 4 then
    if shift = 0 then { year } else { year := year - 1, month := 12, day := 32 + shift }
  else { year, day := 1 + (7 + shift) }

/-- A date by week and weekday after the letter `W`, and what follows it. `dashed`
tells whether hyphens stand between the parts. -/
def weekDate (year : Int) (dashed : Bool) (cs : List Char) :
    Except Refusal (Moment × List Char) := do
  let some week := number? 2 cs | throw .malformed
  let rest := cs.drop 2
  let (weekday, rest) ←
    if rest.isEmpty then pure (1, rest)
    else do
      let rest ← match rest, dashed with
        | '-' :: rest, true => pure rest
        | '-' :: _, false => throw .malformed
        | _, true => throw .malformed
        | rest, false => pure rest
      let some weekday := number? 1 rest | throw .malformed
      pure (weekday, rest.drop 1)
  if ¬(0 < week ∧ week < 54) ∨ ¬(0 < weekday ∧ weekday < 8) then throw .malformed
  if ¬(1 ≤ year ∧ year ≤ 9999) then throw .malformed
  match (firstMonday year).plusDays? ((week - 1) * 7 + (weekday - 1)).toNat with
  | some m => return (m, rest)
  | none => throw .tooLate

/-- A date by week or by day of the year, and what follows it. -/
def otherDate (cs : List Char) : Except Refusal (Moment × List Char) := do
  if cs.length < 4 then throw .malformed
  let some year := number? 4 cs | throw .malformed
  let (dashed, rest) := match cs.drop 4 with
    | '-' :: rest => (true, rest)
    | rest => (false, rest)
  match rest with
  | 'W' :: rest => weekDate year dashed rest
  | rest =>
    if rest.length < 3 then throw .malformed
    let some n := number? 3 rest | throw .malformed
    if n < 1 ∨ n > (if isLeap year then 366 else 365) then throw .malformed
    if ¬(1 ≤ year ∧ year ≤ 9999) then throw .malformed
    match ({ year } : Moment).plusDays? (n - 1).toNat with
    | some m => return (m, rest.drop 3)
    | none => throw .tooLate

def offset? (cs : List Char) : Option Int :=
  match cs with
  | ['Z'] | ['z'] => some 0
  | sign :: rest => do
    if ¬(cs.length = 3 ∨ cs.length = 5 ∨ cs.length = 6) then none
    let factor : Int ← if sign = '-' then some (-1) else if sign = '+' then some 1 else none
    let hours ← number? 2 rest
    let minutes ← match rest.drop 2 with
      | [] => some 0
      | ':' :: rest => number? rest.length rest
      | rest => number? rest.length rest
    if hours = 0 ∧ minutes = 0 then return 0
    if minutes > 59 ∨ hours > 23 then none
    return factor * (hours * 60 + minutes) * 60
  | [] => none

/-- The digits of a fraction of a second as microseconds, any further ones cut off. -/
def fraction? (cs : List Char) : Option (Int × List Char) :=
  match cs with
  | c :: rest =>
    let ds := rest.takeWhile Char.isDigit
    if (c = '.' ∨ c = ',') ∧ ¬ds.isEmpty then
      let kept := ds.take 6
      let n := Int.ofNat (Text.digitsValue kept * Nat.pow 10 (6 - kept.length))
      some (n, rest.dropWhile Char.isDigit)
    else none
  | [] => none

/-- Reads the parts of a time from part number `part` on: hour, minute, second, then
a fraction. An offset may come at any place and is the last thing. `colons` tells
whether colons stand between the parts. -/
def timeFrom (m : Moment) (colons : Bool) : Nat → Nat → List Char → Option Moment
  | 0, _, cs => if cs.isEmpty then some m else none
  | fuel + 1, part, cs =>
    match cs with
    | [] => some m
    | c :: rest =>
      if c = '-' ∨ c = '+' ∨ c = 'Z' ∨ c = 'z' then
        (offset? cs).map fun s => { m with offset := some s }
      else
        match part with
        | 0 => do
          let hour ← number? 2 cs
          timeFrom { m with hour } colons fuel 1 (cs.drop 2)
        | 1 => do
          let (colons, cs) := if c = ':' then (true, rest) else (colons, cs)
          let minute ← number? 2 cs
          timeFrom { m with minute } colons fuel 2 (cs.drop 2)
        | 2 => do
          let cs ← if colons then if c = ':' then some rest else none else some cs
          let second ← number? 2 cs
          timeFrom { m with second } colons fuel 3 (cs.drop 2)
        | 3 =>
          match fraction? cs with
          | some (microsecond, cs) => timeFrom { m with microsecond } colons fuel 4 cs
          | none => timeFrom m colons fuel 4 cs
        | part => timeFrom m colons fuel (part + 1) cs

/-- A time of day on the date of `m`. -/
def time? (m : Moment) (cs : List Char) : Option Moment :=
  if cs.length < 2 then none else timeFrom m false 6 0 cs

/-- Turns the hour 24, which only stands for midnight, into the next day. -/
def settle (m : Moment) : Except Refusal Moment :=
  if m.hour = 24 then
    let early := { m with hour := 0 }
    if ¬(m.minute = 0 ∧ m.second = 0 ∧ m.microsecond = 0) ∨ ¬early.Valid then
      .error .malformed
    else
      match early.tomorrow? with
      | some m => .ok m
      | none => .error .tooLate
  else if m.Valid then .ok m
  else .error .malformed

def read (s : String) : Except Refusal Moment := do
  let cs := s.toList
  if cs.any fun c => c.toNat ≥ 128 then throw .malformed
  let (m, rest) ← match calendarDate? cs with
    | some r => pure r
    | none => otherDate cs
  match rest with
  | [] => settle m
  | _ :: rest =>
    match time? m rest with
    | some m => settle m
    | none => throw .malformed

end Covenant.Moment
