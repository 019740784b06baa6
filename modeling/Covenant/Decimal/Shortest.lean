import Covenant.Decimal.Binary

/-!
The shortest decimal text that reads back as the same double.

The reals that round to a double form an interval around it, ends included iff
its mantissa is even. For one, two, … seventeen digits, the two neighbours of the
double on that decimal grid are tested against the interval in exact arithmetic;
the first grid with a hit gives the digits, and of two hits the nearer wins.
-/

namespace Covenant.Decimal

/-- The interval of reals that round to a double, as quotients over one
denominator. -/
structure Interval where
  low : Nat
  value : Nat
  high : Nat
  denominator : Nat
  closed : Bool

/-- The interval around a positive double. Below a power of two the grid of
doubles is twice as fine. -/
def Interval.around (b : Binary) : Interval :=
  let below := if b.mantissa = Binary.unit ∧ b.exponent > -1074 then 1 else 2
  let s := scaleTwo 1 1 (b.exponent - 2)
  ⟨(4 * b.mantissa - below) * s.1, 4 * b.mantissa * s.1, (4 * b.mantissa + 2) * s.1, s.2,
    b.mantissa % 2 == 0⟩

/-- Whether `digits · 10 ^ e` lies in the interval. -/
def Interval.holds (i : Interval) (digits : Nat) (e : Int) : Bool :=
  let s := scaleTen digits 1 e
  let x := s.1 * i.denominator
  if i.closed then i.low * s.2 ≤ x && x ≤ i.high * s.2
  else i.low * s.2 < x && x < i.high * s.2

/-- The neighbours `d` and `d + 1` of the value on the grid of multiples of
`10 ^ e`: the nearer one that lies in the interval, if any; a tie goes to the
even one. -/
def Interval.hit? (i : Interval) (e : Int) : Option Nat :=
  let s := scaleTen i.value i.denominator (-e)
  let d := s.1 / s.2
  let r := s.1 % s.2
  match i.holds d e && d != 0, i.holds (d + 1) e with
  | true, false => some d
  | false, true => some (d + 1)
  | false, false => none
  | true, true =>
    if 2 * r < s.2 then some d
    else if s.2 < 2 * r then some (d + 1)
    else some (if d % 2 = 0 then d else d + 1)

/-- The least `k` from `start` on, within `fuel` steps, such that the value lies
below `10 ^ k`. -/
def Interval.magnitude (i : Interval) : Nat → Int → Int
  | 0, k => k
  | fuel + 1, k =>
    let s := scaleTen i.denominator 1 k
    if i.value * s.2 < s.1 then k else i.magnitude fuel (k + 1)

/-- The first grid with a hit, from `n` digits on. -/
def Interval.search (i : Interval) (magnitude : Int) : Nat → Int → Nat × Int
  | 0, n => (0, magnitude - n)
  | fuel + 1, n =>
    match i.hit? (magnitude - n) with
    | some d => (d, magnitude - n)
    | none => i.search magnitude fuel (n + 1)

/-- The shortest digits `d` and an exponent `e` with `d · 10 ^ e` reading back as
the double of this size. -/
def shortest (b : Binary) : Nat × Int :=
  let i := Interval.around b
  let low : Int := ((b.mantissa.log2 : Int) + b.exponent) * 30103 / 100000 - 1
  i.search (i.magnitude 4 low) 18 1

def significant (d : Nat) : List Char :=
  match ((toString d).toList.reverse.dropWhile (· == '0')).reverse with
  | [] => ['0']
  | cs => cs

/-- How doubles are written: positional for the decimal exponents from `lowest`
to `highest`, and otherwise with an exponent of at least two digits. -/
structure Layout where
  lowest : Int := -4
  highest : Int := 15

/-- Text of a nonzero size given by its digits and its decimal exponent, that of
the first digit. -/
def Layout.write (n : Layout) (digits : List Char) (exponent : Int) : List Char :=
  if exponent < n.lowest ∨ n.highest < exponent then
    let tail := digits.tail
    digits.take 1 ++ (if tail.isEmpty then [] else '.' :: tail)
      ++ ['e', if exponent < 0 then '-' else '+']
      ++ (if exponent.natAbs < 10 then ['0'] else []) ++ (toString exponent.natAbs).toList
  else if exponent < 0 then
    '0' :: '.' :: List.replicate (exponent.natAbs - 1) '0' ++ digits
  else
    let before := exponent.toNat + 1
    let whole := digits.take before ++ List.replicate (before - digits.length) '0'
    let tail := digits.drop before
    whole ++ '.' :: (if tail.isEmpty then ['0'] else tail)

def writeSize (b : Binary) : List Char :=
  if b.mantissa = 0 then "0.0".toList
  else
    let (d, e) := shortest b
    let all := (toString d).toList
    ({} : Layout).write (significant d) (e + all.length - 1)

/-- The shortest text of a double that reads back as it, with the given spellings
of infinity and NaN. -/
def write (infinity notANumber : String) (x : Float) : String :=
  if x.isNaN then notANumber
  else
    let sign := if isNegative x then "-" else ""
    if x.isInf then sign ++ infinity else sign ++ String.ofList (writeSize (Binary.ofFloat x))

def text (x : Float) : String :=
  write "inf" "nan" x

end Covenant.Decimal
