import Covenant.Decimal.Read
import Covenant.Value.Basic
import Covenant.Value.JsonText

/-!
JSON text of values.

Reading keeps the order of object keys and tells whole numbers from doubles: a
number with a point or an exponent is a double. A text that is not JSON has one
issue, at the first character that cannot continue it. Writing chooses spacing,
order of keys and range of unescaped characters by a `Style`.
-/

namespace Covenant.Json

/-! ### Reading -/

/-- What a text that is not JSON has or lacks. -/
inductive Issue where
  | value
  | propertyName
  | colon
  | comma
  | extra
  | byteOrderMark
  | literal (fault : JsonText.Fault)
  | longNumeral
deriving DecidableEq, Repr

/-- An issue and the number of characters from its place to the end. -/
abbrev Trouble := Issue × Nat

def isSpace (c : Char) : Bool :=
  c == ' ' || c == '\t' || c == '\n' || c == '\r'

/-- The text from the first character that is no blank. -/
def skip (cs : List Char) : List Char :=
  cs.dropWhile isSpace

/-- The digits of a number after an optional point, if a digit follows the point. -/
def takeFraction : List Char → List Char × List Char
  | '.' :: c :: cs =>
    if c.isDigit then ((c :: cs).takeWhile Char.isDigit, cs.dropWhile Char.isDigit)
    else ([], '.' :: c :: cs)
  | cs => ([], cs)

/-- An exponent, if a letter for it is followed by digits with an optional sign. -/
def takeExponent : List Char → Option Int × List Char
  | [] => (none, [])
  | c :: cs =>
    if c = 'e' ∨ c = 'E' then
      let (negative, ds) := Decimal.takeSign cs
      let digits := ds.takeWhile Char.isDigit
      if digits.isEmpty then (none, c :: cs)
      else
        let n : Int := Text.digitsValue digits
        (some (if negative then -n else n), ds.dropWhile Char.isDigit)
    else (none, c :: cs)

/-- The digits of the whole part of a number: a zero stands alone. -/
def takeWhole : List Char → List Char × List Char
  | '0' :: cs => (['0'], cs)
  | cs => (cs.takeWhile Char.isDigit, cs.dropWhile Char.isDigit)

/-- A number without its sign. `start` is the length of the text from its sign. -/
def readNumber (negative : Bool) (start : Nat) (cs : List Char) :
    Except Trouble (Value × List Char) :=
  let (whole, rest) := takeWhole cs
  if whole.isEmpty then .error (.value, start)
  else
    let (fraction, rest) := takeFraction rest
    let (exponent, rest) := takeExponent rest
    if fraction.isEmpty && exponent.isNone then
      if whole.length > Decimal.maxDigits then .error (.longNumeral, start)
      else
        let n : Int := Text.digitsValue whole
        .ok (.int (if negative then -n else n), rest)
    else
      let e := exponent.getD 0 - fraction.length
      .ok (.double (Decimal.ofScientific negative (Text.digitsValue (whole ++ fraction)) e), rest)

def readString (cs : List Char) : Except Trouble (String × List Char) :=
  match JsonText.decode cs with
  | .ok (s, rest) => .ok (String.ofList s, rest)
  | .error (.unterminated, _) => .error (.literal .unterminated, cs.length + 1)
  | .error (fault, n) => .error (.literal fault, n)

def word? (cs : List Char) : Option (Value × List Char) :=
  [("null", Value.null), ("true", .bool true), ("false", .bool false),
    ("NaN", .double (Float.ofBits 0x7ff8000000000000)),
    ("Infinity", .double (Decimal.infinite false)),
    ("-Infinity", .double (Decimal.infinite true))].findSome? fun (w, v) =>
      (Text.dropStart? w.toList cs).map fun rest => (v, rest)

mutual

/-- The value that `cs` begins with. Every step reads a character, so `fuel`
beyond the length of the text is never used up. -/
def readValue : Nat → List Char → Except Trouble (Value × List Char)
  | 0, cs => .error (.value, cs.length)
  | fuel + 1, cs =>
    match cs with
    | '"' :: rest => (readString rest).map fun r => (.text r.1, r.2)
    | '[' :: rest =>
      match skip rest with
      | ']' :: rest => .ok (.list [], rest)
      | rest => (readItems fuel rest).map fun r => (.list r.1, r.2)
    | '\x7b' :: rest =>
      match skip rest with
      | '\x7d' :: rest => .ok (.object [], rest)
      | rest => (readFields fuel rest).map fun r => (.object (Table.ofList r.1), r.2)
    | _ =>
      match word? cs with
      | some r => .ok r
      | none =>
        match cs with
        | '-' :: rest => readNumber true cs.length rest
        | _ => readNumber false cs.length cs

/-- The items of a list up to its closing bracket. -/
def readItems : Nat → List Char → Except Trouble (List Value × List Char)
  | 0, cs => .error (.value, cs.length)
  | fuel + 1, cs => do
    let (v, rest) ← readValue fuel cs
    match skip rest with
    | ']' :: rest => return ([v], rest)
    | ',' :: rest =>
      let (vs, rest) ← readItems fuel (skip rest)
      return (v :: vs, rest)
    | rest => throw (.comma, rest.length)

/-- The entries of an object up to its closing brace. -/
def readFields : Nat → List Char → Except Trouble (List (String × Value) × List Char)
  | 0, cs => .error (.value, cs.length)
  | fuel + 1, cs => do
    match cs with
    | '"' :: rest =>
      let (key, rest) ← readString rest
      match skip rest with
      | ':' :: rest =>
        let (v, rest) ← readValue fuel (skip rest)
        match skip rest with
        | '\x7d' :: rest => return ([(key, v)], rest)
        | ',' :: rest =>
          let (fs, rest) ← readFields fuel (skip rest)
          return ((key, v) :: fs, rest)
        | rest => throw (.comma, rest.length)
      | rest => throw (.colon, rest.length)
    | _ => throw (.propertyName, cs.length)

end

def readChars (cs : List Char) : Except Trouble Value :=
  match cs with
  | '\uFEFF' :: _ => .error (.byteOrderMark, cs.length)
  | _ => do
    let (v, rest) ← readValue (2 * cs.length + 2) (skip cs)
    match skip rest with
    | [] => return v
    | rest => throw (.extra, rest.length)

/-- An issue at its place in the text. -/
structure Fault where
  issue : Issue
  offset : Nat
  position : Text.Position
deriving DecidableEq, Repr

def read (s : String) : Except Fault Value :=
  match readChars s.toList with
  | .ok v => .ok v
  | .error (issue, left) =>
    let offset := s.toList.length - left
    .error ⟨issue, offset, Text.Position.of s.toList offset⟩

def Issue.message : Issue → String
  | .value => "Expecting value"
  | .propertyName => "Expecting property name enclosed in double quotes"
  | .colon => "Expecting ':' delimiter"
  | .comma => "Expecting ',' delimiter"
  | .extra => "Extra data"
  | .byteOrderMark => "Unexpected UTF-8 BOM (decode using utf-8-sig)"
  | .literal .unterminated => "Unterminated string starting at"
  | .literal .control => "Invalid control character at"
  | .literal .escape => "Invalid \\escape"
  | .literal .unit => "Invalid \\uXXXX escape"
  | .longNumeral => "Exceeds the limit for integer string conversion"

def Fault.message (f : Fault) : String :=
  f.issue.message ++ ": line " ++ toString f.position.line ++ " column "
    ++ toString f.position.column ++ " (char " ++ toString f.offset ++ ")"

/-! ### Writing -/

/-- How values are written: what stands between items and after keys, whether
characters outside ASCII are escaped, whether keys are sorted, and the spaces of
indentation per level, if lines are broken. -/
structure Style where
  itemSeparator : String := ", "
  keySeparator : String := ": "
  ascii : Bool := true
  sorted : Bool := false
  indent : Option Nat := none

/-- A line break before an entry at `depth`. -/
def Style.lineBreak (st : Style) (depth : Nat) : String :=
  match st.indent with
  | some n => "\n" ++ "".pushn ' ' (n * depth)
  | none => ""

def Style.group (st : Style) (opening closing : String) (depth : Nat) (entries : List String) :
    String :=
  if entries.isEmpty then opening ++ closing
  else
    let separator :=
      (if st.indent.isSome then "," else st.itemSeparator) ++ st.lineBreak (depth + 1)
    opening ++ st.lineBreak (depth + 1) ++ separator.intercalate entries ++ st.lineBreak depth ++ closing

def sortFields (fields : List (String × String)) : List (String × String) :=
  fields.mergeSort fun a b => a.1 ≤ b.1

mutual

/-- The text of a value at `depth`. -/
def Style.write (st : Style) (depth : Nat) : Value → String
  | .null => "null"
  | .bool true => "true"
  | .bool false => "false"
  | .int n => toString n
  | .double x => Decimal.write "Infinity" "NaN" x
  | .text s => JsonText.literal st.ascii s
  | .list items => st.group "[" "]" depth (st.writeItems (depth + 1) items)
  | .object fields =>
    let written := st.writeFields (depth + 1) fields
    let written := if st.sorted then sortFields written else written
    st.group "\x7b" "\x7d" depth (written.map fun (k, v) =>
      JsonText.literal st.ascii k ++ st.keySeparator ++ v)

/-- The texts of items at `depth`. -/
def Style.writeItems (st : Style) (depth : Nat) : List Value → List String
  | [] => []
  | v :: vs => st.write depth v :: st.writeItems depth vs

/-- The keys of entries with the texts of their values at `depth`. -/
def Style.writeFields (st : Style) (depth : Nat) : List (String × Value) → List (String × String)
  | [] => []
  | (k, v) :: fs => (k, st.write depth v) :: st.writeFields depth fs

end

/-- Compact text with sorted keys: the same for values that differ only in the
order of keys. -/
def canonical (v : Value) : String :=
  ({ itemSeparator := ",", keySeparator := ":", ascii := false, sorted := true } : Style).write 0 v

def compact (v : Value) : String :=
  ({ itemSeparator := ",", keySeparator := ":", ascii := false } : Style).write 0 v

/-- Text with one space between tokens, escaped to ASCII. -/
def spaced (v : Value) : String :=
  ({} : Style).write 0 v

def unescaped (v : Value) : String :=
  ({ ascii := false } : Style).write 0 v

def indented (v : Value) : String :=
  ({ ascii := false, indent := some 2 } : Style).write 0 v

end Covenant.Json
