import Covenant.Text.CharClass

/-!
Operations on text as a list of characters.

Positions count characters from zero; a line feed starts a line. Lines and
columns shown to a reader count from one (`Position.of`).
-/

namespace Covenant.Text

/-! ### Trimming and words -/

/-- Characters from the first that fails `p` on. -/
def trimStart (p : Char → Bool) (cs : List Char) : List Char :=
  cs.dropWhile p

/-- Characters up to the last that fails `p`. -/
def trimEnd (p : Char → Bool) (cs : List Char) : List Char :=
  (cs.reverse.dropWhile p).reverse

/-- Characters between the first and the last that fail `p`. -/
def trim (p : Char → Bool) (cs : List Char) : List Char :=
  trimEnd p (trimStart p cs)

def strip (s : String) : String :=
  String.ofList (trim isBlank s.toList)

/-- Maximal runs of characters that fail `sep`, in order. `word` is the run
being read. -/
def splitRuns (sep : Char → Bool) (word : List Char) : List Char → List (List Char)
  | [] => if word.isEmpty then [] else [word]
  | c :: cs =>
    if sep c then
      if word.isEmpty then splitRuns sep [] cs else word :: splitRuns sep [] cs
    else splitRuns sep (word ++ [c]) cs

/-- The words of a text: its maximal runs without blanks. -/
def words (s : String) : List String :=
  (splitRuns isBlank [] s.toList).map String.ofList

/-- The pieces between the occurrences of `sep`; a text without it is one piece. -/
def splitAt (sep : Char) : List Char → List (List Char)
  | [] => [[]]
  | c :: cs =>
    match splitAt sep cs with
    | [] => [[c]]
    | piece :: pieces => if c = sep then [] :: piece :: pieces else (c :: piece) :: pieces

/-- The rest of `cs` after `start`, if `cs` begins with it. -/
def dropStart? : List Char → List Char → Option (List Char)
  | [], cs => some cs
  | _ :: _, [] => none
  | p :: ps, c :: cs => if p = c then dropStart? ps cs else none

/-- The rest of `cs` before `tail`, if `cs` ends with it. -/
def dropEnd? (tail cs : List Char) : Option (List Char) :=
  (dropStart? tail.reverse cs.reverse).map List.reverse

/-- Whether `needle` occurs in the text. -/
def contains (needle : List Char) : List Char → Bool
  | [] => needle.isEmpty
  | c :: cs => (dropStart? needle (c :: cs)).isSome || contains needle cs

/-- Whether a text ends with `tail`. -/
def endsWith (tail : List Char) (cs : List Char) : Bool :=
  (dropEnd? tail cs).isSome

def lower (s : String) : String :=
  s.map Char.toLower

/-! ### Lines -/

/-- A text without the line feed at its end, if there is one. -/
def withoutLineFeed (cs : List Char) : List Char :=
  if cs.getLast? = some '\n' then cs.dropLast else cs

/-- Carriage returns, alone or before a line feed, become line feeds. -/
def universalNewlines : List Char → List Char
  | [] => []
  | '\r' :: '\n' :: cs => '\n' :: universalNewlines cs
  | c :: cs => (if c = '\r' then '\n' else c) :: universalNewlines cs

/-- A line and a column, both from one. -/
structure Position where
  line : Nat
  column : Nat
deriving DecidableEq, Repr, Inhabited

/-- The position one character after `p`. -/
def Position.after (p : Position) (c : Char) : Position :=
  if c = '\n' then ⟨p.line + 1, 1⟩ else ⟨p.line, p.column + 1⟩

/-- The position reached after reading `cs` from the start of a text. -/
def Position.afterAll (cs : List Char) : Position :=
  cs.foldl Position.after ⟨1, 1⟩

/-- The position of the character at `offset`. -/
def Position.of (cs : List Char) (offset : Nat) : Position :=
  Position.afterAll (cs.take offset)

/-! ### Paths -/

/-- Order of paths step by step; a path comes before those that go on from it. -/
def pathLe : List String → List String → Bool
  | [], _ => true
  | _ :: _, [] => false
  | x :: xs, y :: ys => if x = y then pathLe xs ys else decide (x ≤ y)

/-! ### Numerals -/

/-- A numeral with at least `width` digits, zeros in front. -/
def padded (width n : Nat) : String :=
  let digits := toString n
  "".pushn '0' (width - digits.length) ++ digits

/-- The hexadecimal digit of a value below sixteen. -/
def hexDigit (n : Nat) : Char :=
  if n < 10 then Char.ofNat (48 + n) else Char.ofNat (87 + n)

/-- `width` hexadecimal digits of `n`, most significant first. -/
def hexDigits : Nat → Nat → List Char
  | 0, _ => []
  | width + 1, n => hexDigits width (n / 16) ++ [hexDigit (n % 16)]

def hexValue? (c : Char) : Option Nat :=
  if c.isDigit then some (c.toNat - 48)
  else if 'a' ≤ c ∧ c ≤ 'f' then some (c.toNat - 87)
  else if 'A' ≤ c ∧ c ≤ 'F' then some (c.toNat - 55)
  else none

def digitsValue (cs : List Char) : Nat :=
  cs.foldl (fun n c => 10 * n + (c.toNat - 48)) 0

/-! ### Quoted text in messages

A text is put in single quotes, or in double quotes when it holds a single quote and no double
one. The backslash and the quote are escaped, line feeds, carriage returns and tabs have their
short escapes, and every other character that is not printable is written by its code point. -/

namespace Quoted

def quoteFor (cs : List Char) : Char :=
  if cs.contains '\'' && !cs.contains '"' then '"' else '\''

/-- One character inside quotes of kind `quote`. -/
def escape (quote : Char) (c : Char) : List Char :=
  if c = quote ∨ c = '\\' then ['\\', c]
  else if c = '\n' then ['\\', 'n']
  else if c = '\r' then ['\\', 'r']
  else if c = '\t' then ['\\', 't']
  else if isPrintable c then [c]
  else if c.toNat < 0x100 then '\\' :: 'x' :: hexDigits 2 c.toNat
  else if c.toNat < 0x10000 then '\\' :: 'u' :: hexDigits 4 c.toNat
  else '\\' :: 'U' :: hexDigits 8 c.toNat

def encode (cs : List Char) : List Char :=
  quoteFor cs :: cs.flatMap (escape (quoteFor cs)) ++ [quoteFor cs]

def quote (s : String) : String :=
  String.ofList (encode s.toList)

def quoteAll (xs : List String) : String :=
  "[" ++ ", ".intercalate (xs.map quote) ++ "]"

end Quoted

end Covenant.Text
