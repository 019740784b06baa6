import Covenant.Decimal.Shortest
import Covenant.Table
import Covenant.Text.Basic

/-!
Data values.

The data of a contract, the contents of model files and package settings are all
values of one type: null, truth values, whole numbers, doubles, texts, lists and
objects. A whole number and a double are different values even when they are
equal as numbers. The entries of an object are ordered, and each key occurs once.
-/

namespace Covenant

/-- A data value. -/
inductive Value where
  | null
  | bool (b : Bool)
  | int (n : Int)
  | double (x : Float)
  | text (s : String)
  | list (items : List Value)
  | object (fields : List (String × Value))
deriving Inhabited

namespace Value

/-! ### Parts -/

/-- The entry of an object under `key`. -/
def get? : Value → String → Option Value
  | .object fields, key => Table.find? fields key
  | _, _ => none

/-- Whether a value is an object. -/
def isObject : Value → Bool
  | .object _ => true
  | _ => false

/-- Whether a value is null. -/
def isNull : Value → Bool
  | .null => true
  | _ => false

def text? : Value → Option String
  | .text s => some s
  | _ => none

def ofOption : Option Value → Value
  | some v => v
  | none => .null

/-- A text, or null for an absent one. -/
def ofText? : Option String → Value
  | some s => .text s
  | none => .null

def texts (xs : List String) : Value :=
  .list (xs.map .text)

/-- Whether a value counts as set: not null, false, zero or empty. -/
def isSet : Value → Bool
  | .null => false
  | .bool b => b
  | .int n => n != 0
  | .double x => x != 0.0
  | .text s => s != ""
  | .list items => !items.isEmpty
  | .object fields => !fields.isEmpty

/-! ### The text of a value in messages -/

mutual

/-- A value as it is shown inside a message: texts are quoted. -/
def quoted : Value → String
  | .null => "None"
  | .bool true => "True"
  | .bool false => "False"
  | .int n => toString n
  | .double x => Decimal.text x
  | .text s => Text.Quoted.quote s
  | .list items => "[" ++ ", ".intercalate (quotedItems items) ++ "]"
  | .object fields => "\x7b" ++ ", ".intercalate (quotedFields fields) ++ "\x7d"

/-- The items of a list as they are shown inside a message. -/
def quotedItems : List Value → List String
  | [] => []
  | v :: vs => v.quoted :: quotedItems vs

/-- The entries of an object as they are shown inside a message. -/
def quotedFields : List (String × Value) → List String
  | [] => []
  | (k, v) :: fs => (Text.Quoted.quote k ++ ": " ++ v.quoted) :: quotedFields fs

end

/-- A value as running text: a text stands for itself. -/
def plain : Value → String
  | .text s => s
  | v => v.quoted

/-! ### Equality of values -/

/-- A value as a number: truth values count as one and zero. -/
inductive Number where
  | whole (n : Int)
  | real (x : Float)

def number? : Value → Option Number
  | .bool b => some (.whole (if b then 1 else 0))
  | .int n => some (.whole n)
  | .double x => some (.real x)
  | _ => none

def Number.same : Number → Number → Bool
  | .whole m, .whole n => m == n
  | .real x, .real y => x == y
  | .whole n, .real x | .real x, .whole n => Decimal.isWhole x && Decimal.whole? x == some n

mutual

/-- Equality of values: numbers by size, objects whatever the order of their
keys. -/
def same : Value → Value → Bool
  | .null, .null => true
  | .text s, .text t => s == t
  | .list xs, .list ys => sameItems xs ys
  | .object fs, .object gs => fs.length == gs.length && sameFields fs gs
  | v, w =>
    match v.number?, w.number? with
    | some m, some n => m.same n
    | _, _ => false

def sameItems : List Value → List Value → Bool
  | [], [] => true
  | x :: xs, y :: ys => x.same y && sameItems xs ys
  | _, _ => false

/-- Whether every entry of the first object has an equal one in the second. -/
def sameFields : List (String × Value) → List (String × Value) → Bool
  | [], _ => true
  | (k, v) :: fs, gs =>
    (match Table.find? gs k with
      | some w => v.same w
      | none => false) && sameFields fs gs

end

end Value

end Covenant
