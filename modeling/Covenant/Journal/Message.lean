import Covenant.Value.Conversion

/-!
Messages with places for values.

A place is a percent sign and a letter: `%s` shows a value as running text, `%r` quoted,
and `%d` and `%i` show a number without its fraction; `%%` is a percent sign. A message
takes its values in order, and there have to be as many as places. A message that is
given no values stands for itself.
-/

namespace Covenant.Journal

/-- A value without its fraction, which only numbers have. -/
def wholeText? : Value → Option String
  | .text _ => none
  | v => v.toInt?.map fun n => toString n

def placed? (letter : Char) (v : Value) : Option String :=
  match letter with
  | 's' => some v.plain
  | 'r' => some v.quoted
  | 'd' | 'i' | 'u' => wholeText? v
  | _ => none

def fillChars : List Char → List Value → Option (List Char)
  | [], [] => some []
  | [], _ :: _ => none
  | '%' :: '%' :: cs, vs => (fillChars cs vs).map ('%' :: ·)
  | '%' :: letter :: cs, v :: vs => do
    let shown ← placed? letter v
    let rest ← fillChars cs vs
    return shown.toList ++ rest
  | '%' :: _, _ => none
  | c :: cs, vs => (fillChars cs vs).map (c :: ·)

/-- The text of a message with its values, if they fit. -/
def fill (message : String) (values : List Value) : Option String :=
  if values.isEmpty then some message
  else (fillChars message.toList values).map String.ofList

end Covenant.Journal
