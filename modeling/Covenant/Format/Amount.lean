import Covenant.Decimal.Binary
import Covenant.Format.Date
import Covenant.Value.Conversion

/-!
Amount formats.

An amount format shows zeros where digits go: `0,0.00` has a separator of thousands,
a decimal separator and two places; `0.000` has no separator of thousands. What
stands before and after the zeros stands before and after the amount.
-/

namespace Covenant

/-- A character that stands for itself in a regular expression. -/
def escapeRegex (c : Char) : List Char :=
  if "()[]\x7b\x7d?*+-|^$\\.&~# \t\n\r\x0b\x0c".toList.contains c then ['\\', c] else [c]

/-- An amount format. There are places iff there is a decimal separator. -/
structure AmountFormat where
  before : List Char
  after : List Char
  thousands : Option Char
  decimal : Option Char
  places : Nat
deriving DecidableEq, Repr

namespace AmountFormat

/-- What comes after the whole part: a decimal separator with zeros, if there is one,
and text without zeros. -/
def tail? (before : List Char) (thousands : Option Char) (cs : List Char) :
    Option AmountFormat :=
  let plain : Option AmountFormat :=
    if cs.contains '0' then none else some ⟨before, cs, thousands, none, 0⟩
  match cs with
  | c :: '0' :: rest =>
    if c.isDigit then plain
    else
      let zeros := ('0' :: rest).takeWhile (· == '0')
      let after := rest.dropWhile (· == '0')
      if after.contains '0' then none else some ⟨before, after, thousands, some c, zeros.length⟩
  | _ => plain

/-- Reads a format: first as one with a separator of thousands, then as one
without. -/
def ofChars? (cs : List Char) : Option AmountFormat :=
  let before := cs.takeWhile (· != '0')
  match cs.dropWhile (· != '0') with
  | '0' :: rest =>
    let grouped := match rest with
      | c :: '0' :: rest => if c.isDigit then none else tail? before (some c) rest
      | _ => none
    match grouped with
    | some f => some f
    | none => tail? before none rest
  | _ => none

def ofString (format : String) : Outcome AmountFormat :=
  match ofChars? format.toList with
  | none => .fail (.format (.amount format))
  | some f =>
    if f.decimal.isSome && f.decimal == f.thousands then .fail (.format (.sameSeparators format))
    else .ok f

def regex (f : AmountFormat) : String :=
  let whole := match f.thousands with
    | some c =>
      "(?:[0-9]\x7b1,3\x7d(?:" ++ String.ofList (escapeRegex c) ++ "[0-9]\x7b3\x7d)+|[0-9]+)"
    | none => "[0-9]+"
  let fraction := match f.decimal with
    | some c =>
      String.ofList (escapeRegex c) ++ "[0-9]\x7b" ++ toString f.places ++ "\x7d"
    | none => ""
  "-?" ++ whole ++ fraction

def number (f : AmountFormat) : Symbol :=
  .pattern f.regex

/-- A literal symbol for a text, unless it is empty. -/
def affix (cs : List Char) : List Symbol :=
  if cs.isEmpty then [] else [.literal (String.ofList cs)]

/-- The symbols that a text of the format is made of. -/
def symbols (f : AmountFormat) : List Symbol :=
  affix f.before ++ [f.number] ++ affix f.after

/-- The number as a plain numeral: without separators of thousands, and with a
point. -/
def numeral (f : AmountFormat) (cs : List Char) : List Char :=
  let cs := match f.thousands with
    | some c => cs.filter (· != c)
    | none => cs
  match f.decimal with
  | some c => cs.map fun d => if d = c then '.' else d
  | none => cs

def toDouble? (f : AmountFormat) (cs : List Char) : Option Float :=
  Decimal.readFloat? (String.ofList (f.numeral cs))

def groups : Nat → List Char → List (List Char)
  | 0, cs => [cs]
  | fuel + 1, cs =>
    if cs.length ≤ 3 then [cs]
    else groups fuel (cs.take (cs.length - 3)) ++ [cs.drop (cs.length - 3)]

/-- A plain numeral without a sign in the format: its whole part in groups and its
fraction after the separators of the format. -/
def writeNumeral (f : AmountFormat) (numeral : List Char) : List Char :=
  let whole := numeral.takeWhile (· != '.')
  let fraction := (numeral.dropWhile (· != '.')).drop 1
  let whole := match f.thousands with
    | some c => [c].intercalate (groups whole.length whole)
    | none => whole
  match f.decimal with
  | some c => whole ++ c :: fraction
  | none => whole

def writeNumber (f : AmountFormat) (x : Float) : List Char :=
  (if x < 0.0 then ['-'] else []) ++ f.writeNumeral (Decimal.fixed f.places x).toList

end AmountFormat

namespace Amount

def rule (format : String) : Outcome Rule := do
  let f ← AmountFormat.ofString format
  return formatRule "Double" "amount" format f.symbols

def read (text format : String) : Outcome Float := do
  let f ← AmountFormat.ofString format
  match splitBySymbols? f.symbols text with
  | none => .fail (.reading (.amount text format))
  | some pieces => .ofOption (f.toDouble? (pieces.getD (AmountFormat.affix f.before).length []))

def write (value : Value) (format : String) : Outcome String := do
  let f ← AmountFormat.ofString format
  let x ← Outcome.ofOption value.toDouble?
  return String.ofList (f.before ++ f.writeNumber x ++ f.after)

end Amount

end Covenant
