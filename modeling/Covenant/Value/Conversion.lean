import Covenant.Decimal.Read
import Covenant.Value.Basic

/-!
Values taken as other kinds of values: as running text, as numbers, as members.
-/

namespace Covenant

namespace Value

mutual

/-- The running text of a value: lists are joined and null is left out. -/
def flat : Value → String
  | .null => ""
  | .list vs => flatAll vs
  | v => v.plain

def flatAll : List Value → String
  | [] => ""
  | v :: vs => v.flat ++ flatAll vs

end

/-- A value as a whole number: numbers and truth values, fractions cut off, and texts
that hold a whole number. -/
def toInt? : Value → Option Int
  | .int n => some n
  | .bool b => some (if b then 1 else 0)
  | .double x => Decimal.whole? x
  | .text s => Decimal.readInt? s
  | _ => none

/-- A value as a double: numbers and truth values, and texts that hold a number. -/
def toDouble? : Value → Option Float
  | .double x => some x
  | .int n => Decimal.ofInt? n
  | .bool b => some (if b then 1.0 else 0.0)
  | .text s => Decimal.readFloat? s
  | _ => none

/-- The members of a value: items, characters or keys. -/
def members? : Value → Option (List Value)
  | .list vs => some vs
  | .text s => some (s.toList.map fun c => .text (toString c))
  | .object fs => some (fs.map fun e => .text e.1)
  | _ => none

end Value

end Covenant
