import Covenant.Digest
import Covenant.Grammar.Derivation
import Covenant.Moment.Reader
import Covenant.Settings

/-!
Date formats.

A format is made of fields such as `YYYY`, `MMM` or `DD` and of literal text; text
in square brackets is always literal. A format reads a text into a moment and writes
a moment as text. The text of every field matches the field's pattern.
-/

namespace Covenant

/-- The fields of a date format. -/
inductive DateField where
  | year
  | monthName
  | monthShort
  | millisecond
  | shortYear
  | month2
  | day2
  | hour2
  | minute
  | second
  | month
  | day
  | hour
  | zone
deriving DecidableEq, Repr

def monthNames : List String :=
  ["January", "February", "March", "April", "May", "June", "July", "August", "September",
    "October", "November", "December"]

/-- The first three letters of the names of the months. -/
def monthShorts : List String :=
  ["Jan", "Feb", "Mar", "Apr", "May", "Jun", "Jul", "Aug", "Sep", "Oct", "Nov", "Dec"]

namespace DateField

def code : DateField → String
  | .year => "YYYY"
  | .monthName => "MMMM"
  | .monthShort => "MMM"
  | .millisecond => "SSS"
  | .shortYear => "YY"
  | .month2 => "MM"
  | .day2 => "DD"
  | .hour2 => "HH"
  | .minute => "mm"
  | .second => "ss"
  | .month => "M"
  | .day => "D"
  | .hour => "H"
  | .zone => "Z"

/-- All fields; a field stands before those that its code begins with. -/
def all : List DateField :=
  [.year, .monthName, .monthShort, .millisecond, .shortYear, .month2, .day2, .hour2, .minute,
    .second, .month, .day, .hour, .zone]

def regex : DateField → String
  | .year => "[0-9]\x7b4\x7d"
  | .monthName => "(?:" ++ "|".intercalate monthNames ++ ")"
  | .monthShort => "(?:" ++ "|".intercalate monthShorts ++ ")"
  | .millisecond => "[0-9]\x7b3\x7d"
  | .shortYear => "[0-9]\x7b2\x7d"
  | .month2 => "(?:0[1-9]|1[0-2])"
  | .day2 => "(?:0[1-9]|[12][0-9]|3[01])"
  | .hour2 => "(?:[01][0-9]|2[0-3])"
  | .minute => "[0-5][0-9]"
  | .second => "[0-5][0-9]"
  | .month => "(?:1[0-2]|[1-9])"
  | .day => "(?:3[01]|[12][0-9]|[1-9])"
  | .hour => "(?:2[0-3]|1[0-9]|[0-9])"
  | .zone => "(?:Z|[+-][0-9]\x7b2\x7d:?[0-9]\x7b2\x7d)"

/-- The offset that the text of a zone field gives, in seconds. -/
def offsetOf (cs : List Char) : Int :=
  match cs with
  | sign :: rest =>
    if sign = 'Z' then 0
    else
      let digits := rest.filter (· != ':')
      let seconds : Int :=
        Text.digitsValue (digits.take 2) * 3600 + Text.digitsValue (digits.drop 2) * 60
      if sign = '-' then -seconds else seconds
  | [] => 0

/-- Sets the part of a moment that a field's text gives. A year of two digits lies
between 1969 and 2068. -/
def read (f : DateField) (cs : List Char) (m : Moment) : Moment :=
  let n : Int := Text.digitsValue cs
  match f with
  | .year => { m with year := n }
  | .shortYear => { m with year := n + if n > 68 then 1900 else 2000 }
  | .monthName => { m with month := monthNames.idxOf (String.ofList cs) + 1 }
  | .monthShort => { m with month := monthShorts.idxOf (String.ofList cs) + 1 }
  | .month2 | .month => { m with month := n }
  | .day2 | .day => { m with day := n }
  | .hour2 | .hour => { m with hour := n }
  | .minute => { m with minute := n }
  | .second => { m with second := n }
  | .millisecond => { m with microsecond := n * 1000 }
  | .zone => { m with offset := some (offsetOf cs) }

def write (f : DateField) (m : Moment) : String :=
  match f with
  | .year => Moment.digits 4 m.year
  | .shortYear => Moment.digits 2 (m.year % 100)
  | .monthName => monthNames.getD (m.month - 1).toNat ""
  | .monthShort => monthShorts.getD (m.month - 1).toNat ""
  | .month2 => Moment.digits 2 m.month
  | .month => toString m.month
  | .day2 => Moment.digits 2 m.day
  | .day => toString m.day
  | .hour2 => Moment.digits 2 m.hour
  | .hour => toString m.hour
  | .minute => Moment.digits 2 m.minute
  | .second => Moment.digits 2 m.second
  | .millisecond => Moment.digits 3 (m.microsecond / 1000)
  | .zone => Moment.offsetText (m.offset.getD 0)

end DateField

/-- A piece of a date format. -/
inductive DateToken where
  | field (f : DateField)
  | literal (text : List Char)
deriving DecidableEq, Repr

namespace DateToken

/-- The text of a piece as it stands in the format. -/
def text : DateToken → String
  | .field f => f.code
  | .literal cs => String.ofList cs

/-- Whether a piece is a field. -/
def isField : DateToken → Bool
  | .field _ => true
  | .literal _ => false

def symbol : DateToken → Symbol
  | .field f => .pattern f.regex
  | .literal cs => .literal (String.ofList cs)

end DateToken

/-- The name of the rule for a format: its type and the start of its digest. -/
def formatRuleName (type format : String) : String :=
  type ++ "_" ++ String.ofList ((Digest.ofString format).toList.take 12)

/-- The rule for a format: its symbols, read by an action that knows the format. -/
def formatRule (type action format : String) (symbols : List Symbol) : Rule :=
  { name := formatRuleName type format
    alternatives := [symbols]
    action := some ⟨action, [⟨"format", .const format⟩]⟩
    comment := some (type ++ " format " ++ format)
    origin := .format }

/-- Cuts a text into the parts that symbols match. -/
def splitBySymbols? (symbols : List Symbol) (text : String) : Option (List (List Char)) :=
  Pattern.split? (symbols.map Symbol.toPattern) text.toList

/-- A date format as its pieces. -/
structure DateFormat where
  tokens : List DateToken
deriving DecidableEq, Repr

namespace DateFormat

/-- The literal text read so far as a piece, if there is any. -/
def flush (literal : List Char) : List DateToken :=
  if literal.isEmpty then [] else [.literal literal]

/-- The field that a text begins with, and what follows it. -/
def field? (cs : List Char) : Option (DateField × List Char) :=
  DateField.all.findSome? fun f => (Text.dropStart? f.code.toList cs).map fun rest => (f, rest)

/-- The pieces of a format after the literal text read so far, or nothing if a
bracket is left open. Each round reads a character, so `fuel` beyond the length of
the text is never used up. -/
def pieces : Nat → List Char → List Char → Option (List DateToken)
  | 0, literal, _ => some (flush literal)
  | fuel + 1, literal, cs =>
    match cs with
    | [] => some (flush literal)
    | '[' :: rest =>
      match rest.dropWhile (· != ']') with
      | _ :: after => pieces fuel (literal ++ rest.takeWhile (· != ']')) after
      | [] => none
    | c :: rest =>
      match field? (c :: rest) with
      | some (f, rest) => (pieces fuel [] rest).map fun ts => flush literal ++ .field f :: ts
      | none => pieces fuel (literal ++ [c]) rest

def ofString (format : String) : Outcome DateFormat :=
  if format.isEmpty then .fail (.format .emptyDate)
  else
    match pieces (format.length + 1) [] format.toList with
    | none => .fail (.format (.unterminatedLiteral format))
    | some tokens =>
      if tokens.any DateToken.isField then .ok ⟨tokens⟩
      else .fail (.format (.noDateFields format))

/-- The symbols that a text of the format is made of. -/
def symbols (f : DateFormat) : List Symbol :=
  f.tokens.map DateToken.symbol

/-- The parts of a moment that the pieces of a text give, from left to right. -/
def collect (f : DateFormat) (pieces : List (List Char)) : Moment :=
  (f.tokens.zip pieces).foldl (fun m (t, cs) =>
    match t with
    | .field field => field.read cs m
    | .literal _ => m) {}

def write (f : DateFormat) (m : Moment) : String :=
  String.join (f.tokens.map fun t =>
    match t with
    | .field field => field.write m
    | .literal cs => String.ofList cs)

end DateFormat

namespace DateTime

def rule (format : String) : Outcome Rule := do
  let f ← DateFormat.ofString format
  return formatRule "DateTime" "datetime" format f.symbols

/-- Reads a text in a date format into the international format. The offset comes
from the text, or else from the clock given, or else from the zone. -/
def read (text format : String) (clock : Option Int) (zone : Zone := {}) : Outcome String := do
  let f ← DateFormat.ofString format
  match splitBySymbols? f.symbols text with
  | none => .fail (.reading (.date text format))
  | some pieces =>
    let m := f.collect pieces
    let m := { m with offset := some (m.offset.getD (clock.getD (zone.offsetAt m))) }
    if ¬m.YearInRange then .fail (.reading (.moment text format (.year m.year.toNat)))
    else if ¬m.DayInRange then .fail (.reading (.moment text format .day))
    else if (m.offset.getD 0).natAbs ≥ 86400 then .fail .undefined
    else .ok m.text

/-- Writes a value in the international format in a date format. -/
def write (value : Value) (format : String) : Outcome String := do
  let m ← match value with
    | .text s =>
      match Moment.read s with
      | .ok m => pure m
      | .error .malformed => .fail (.format (.notDate s))
      | .error .tooLate => .fail .undefined
    | v => .fail (.format (.notDate v.plain))
  let f ← DateFormat.ofString format
  return f.write m

end DateTime

end Covenant
