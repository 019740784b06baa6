import Covenant.Text.Basic

/-!
Double precision numbers as exact binary fractions.

A finite double is `± mantissa · 2 ^ exponent`. Decoding reads the two numbers
off its bits, and encoding rounds any quotient of natural numbers to the nearest
double, a half going to the even neighbour. All arithmetic in between is exact.
-/

namespace Covenant.Decimal

/-- The quotient of `n` by `d` rounded to the nearest number, a half going to the
even neighbour. -/
def divHalfEven (n d : Nat) : Nat :=
  let q := n / d
  let r := n % d
  if 2 * r < d then q
  else if d < 2 * r then q + 1
  else if q % 2 = 0 then q else q + 1

/-- The quotient `n / d` times `2 ^ e`, as a numerator and a denominator. -/
def scaleTwo (n d : Nat) (e : Int) : Nat × Nat :=
  if e < 0 then (n, d * Nat.pow 2 e.natAbs) else (n * Nat.pow 2 e.natAbs, d)

/-- The quotient `n / d` times `10 ^ e`, as a numerator and a denominator. -/
def scaleTen (n d : Nat) (e : Int) : Nat × Nat :=
  if e < 0 then (n, d * Nat.pow 10 e.natAbs) else (n * Nat.pow 10 e.natAbs, d)

/-- The size of a finite double: `mantissa · 2 ^ exponent`. -/
structure Binary where
  mantissa : Nat
  exponent : Int
deriving DecidableEq, Repr

namespace Binary

/-- The weight of the lowest bit of the exponent field, which is also that of a
mantissa's leading bit. -/
def unit : Nat := Nat.pow 2 52

def signBit : Nat := Nat.pow 2 63

def infinity : Nat := 2047 * unit

/-- Reads mantissa and exponent off the bits below the sign. -/
def ofBits (bits : Nat) : Binary :=
  let field : Nat := bits / unit % 2048
  let fraction : Nat := bits % unit
  if field = 0 then ⟨fraction, -1074⟩ else ⟨unit + fraction, Int.ofNat field - 1075⟩

/-- The size of a double; of no meaning for infinities and NaN. -/
def ofFloat (x : Float) : Binary :=
  ofBits x.toBits.toNat

def ratio (b : Binary) : Nat × Nat :=
  scaleTwo b.mantissa 1 b.exponent

/-- Whether the size is a whole number. -/
def isWhole (b : Binary) : Bool :=
  b.ratio.1 % b.ratio.2 == 0

def whole (b : Binary) : Nat :=
  b.ratio.1 / b.ratio.2

end Binary

/-- The bits of the double nearest to the positive quotient `n / d`, or of
infinity when that is out of range. -/
def nearestBits (n d : Nat) : Nat :=
  let low : Int := (n.log2 : Int) - d.log2 - 53
  let tryAt : Int := if low < -1074 then -1074 else low
  let scaled := scaleTwo n d (-tryAt)
  let e : Int := if scaled.1 / scaled.2 ≥ 2 * Binary.unit then tryAt + 1 else tryAt
  let scaled := scaleTwo n d (-e)
  let bits := (e + 1074).toNat * Binary.unit + divHalfEven scaled.1 scaled.2
  if bits ≥ Binary.infinity then Binary.infinity else bits

/-- The double with the given sign nearest to `n / d`. -/
def nearest (negative : Bool) (n d : Nat) : Float :=
  let bits := if n = 0 then 0 else nearestBits n d
  Float.ofBits ((if negative then Binary.signBit else 0) + bits).toUInt64

def infinite (negative : Bool) : Float :=
  Float.ofBits ((if negative then Binary.signBit else 0) + Binary.infinity).toUInt64

/-- The double nearest to `± digits · 10 ^ e`. A numeral whose size is far out of
range is infinite or zero without the power being computed. -/
def ofScientific (negative : Bool) (digits : Nat) (e : Int) : Float :=
  let size : Int := (toString digits).length + e
  if digits = 0 ∨ size < -330 then nearest negative 0 1
  else if size > 330 then infinite negative
  else
    let scaled := scaleTen digits 1 e
    nearest negative scaled.1 scaled.2

/-- The double nearest to a whole number, if it is in range. -/
def ofInt? (n : Int) : Option Float :=
  let x := nearest (n < 0) n.natAbs 1
  if x.isFinite then some x else none

/-- Whether the sign bit is set. -/
def isNegative (x : Float) : Bool :=
  x.toBits.toNat ≥ Binary.signBit

/-- Whether a double is a whole number. -/
def isWhole (x : Float) : Bool :=
  x.isFinite && (Binary.ofFloat x).isWhole

/-- The whole part of a finite double, toward zero. -/
def whole? (x : Float) : Option Int :=
  if x.isFinite then
    let n : Int := (Binary.ofFloat x).whole
    some (if isNegative x then -n else n)
  else none

/-! ### A fixed number of places

The exact value of a double is rounded to the nearest multiple of the last place, and a
half goes to the even neighbour. -/

/-- `n` as a numeral with `places` digits after the point, which is left out when
there are none. `n` counts units of the last place. -/
def placed (places n : Nat) : String :=
  if places = 0 then toString n
  else
    Text.padded 1 (n / Nat.pow 10 places) ++ "." ++ Text.padded places (n % Nat.pow 10 places)

/-- The size of a finite double in units of the last of `places` places. -/
def units (places : Nat) (b : Binary) : Nat :=
  divHalfEven (b.ratio.1 * Nat.pow 10 places) b.ratio.2

/-- The size of a double with `places` places. -/
def fixed (places : Nat) (x : Float) : String :=
  if x.isNaN then "nan"
  else if x.isInf then "inf"
  else placed places (units places (Binary.ofFloat x))

end Covenant.Decimal
