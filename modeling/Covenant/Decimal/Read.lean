import Covenant.Decimal.Binary
import Covenant.Text.Basic

/-!
Numerals in free text.

A number in free text may have blanks around it, a sign, and single underscores
between digits; its digits may be those of any script. `readInt?` reads whole
numbers, `readFloat?` also fractions, exponents and the names of the infinities
and NaN.
-/

namespace Covenant.Decimal

/-- The values of digits in which single underscores stand only between digits.
`afterDigit` tells whether a digit came just before. -/
def digitRun (afterDigit : Bool) : List Char → Option (List Nat)
  | [] => if afterDigit then some [] else none
  | c :: cs =>
    if c = '_' then if afterDigit then digitRun false cs else none
    else do
      let d ← Text.digitValue? c
      let ds ← digitRun true cs
      return d :: ds

def ofDigits (ds : List Nat) : Nat :=
  ds.foldl (fun n d => 10 * n + d) 0

def takeSign : List Char → Bool × List Char
  | '-' :: cs => (true, cs)
  | '+' :: cs => (false, cs)
  | cs => (false, cs)

/-- The longest numeral of a whole number that is read or written. -/
def maxDigits : Nat := 4300

def readInt? (s : String) : Option Int := do
  let (negative, cs) := takeSign (Text.trim Text.isBlank s.toList)
  let ds ← digitRun false cs
  if ds.length > maxDigits then none
  let n : Int := ofDigits ds
  return if negative then -n else n

def digitRunOrNone (cs : List Char) : Option (List Nat) :=
  if cs.isEmpty then some [] else digitRun false cs

/-- The text before the first character that `p` accepts, and that character with
what follows. -/
def breakAt (p : Char → Bool) (cs : List Char) : List Char × List Char :=
  (cs.takeWhile fun c => !p c, cs.dropWhile fun c => !p c)

def readFloat? (s : String) : Option Float := do
  let (negative, cs) := takeSign (Text.trim Text.isBlank s.toList)
  match Text.lower (String.ofList cs) with
  | "inf" | "infinity" => return infinite negative
  | "nan" => return Float.ofBits 0x7ff8000000000000
  | _ =>
    let (mantissa, tail) := breakAt (fun c => c == 'e' || c == 'E') cs
    let (whole, fraction) := breakAt (· == '.') mantissa
    let ws ← digitRunOrNone whole
    let fs ← digitRunOrNone (fraction.drop 1)
    if ws.isEmpty && fs.isEmpty then none
    let e ← match tail with
      | [] => some (0 : Int)
      | _ :: ecs => do
        let (eneg, ecs) := takeSign ecs
        let ds ← digitRun false ecs
        let n : Int := ofDigits ds
        some (if eneg then -n else n)
    return ofScientific negative (ofDigits (ws ++ fs)) (e - fs.length)

end Covenant.Decimal
