import Covenant.Markup.Node

/-!
Nodes of a template as values.

A node is shown as an object that names its kind and has its fields and its place.
-/

namespace Covenant.Markup

def BlockKind.tag : BlockKind → String
  | .clause => "ClauseBinding"
  | .within => "WithBinding"
  | .list style => style.tag

def BlockKind.separatorValue : BlockKind → List (String × Value)
  | .list (.joined separator) => [("separator", .text separator)]
  | _ => []

namespace Node

def placeValue (p : Text.Position) : List (String × Value) :=
  [("line", .int p.line), ("column", .int p.column)]

/-- An object of a kind, with entries and a place. -/
def kindValue (kind : String) (entries : List (String × Value)) (p : Text.Position) : Value :=
  .object (("kind", .text kind) :: entries ++ placeValue p)

/-- A number as an entry, if it is there. -/
def numberValue (key : String) (n : Option Nat) : List (String × Value) :=
  (n.map fun n => (key, Value.int n)).toList

mutual

def toValue : Node → Value
  | .text body last p =>
    kindValue (if last then "LastChunk" else "StaticChunk") [("text", .text body)] p
  | .binding field format p =>
    kindValue "Binding" [("field", .text field), ("format_spec", .ofText? format)] p
  | .formatted field format p =>
    kindValue "FormattedBinding" [("field", .text field), ("format", .text format)] p
  | .shown field whenTrue p =>
    kindValue "IfBinding" [("field", .text field), ("when_true", .text whenTrue)] p
  | .choice field whenTrue whenFalse p =>
    kindValue "IfElseBinding" [("field", .text field), ("when_true", .text whenTrue),
      ("when_false", .text whenFalse)] p
  | .block kind field nested p =>
    kindValue kind.tag (("field", .text field) :: ("nested", .list (toValues nested))
      :: kind.separatorValue) p
  | .expression body p => kindValue "Expr" [("expression", .text body)] p
  | .foreign kind field line column =>
    .object (("kind", .text kind) :: (field.map fun f => ("field", Value.text f)).toList
      ++ numberValue "line" line ++ numberValue "column" column)

def toValues : List Node → List Value
  | [] => []
  | n :: ns => n.toValue :: toValues ns

end

end Node

end Covenant.Markup
