import Covenant.Grammar.Rule

/-!
Grammar rules as values.

A rule is shown as an object with all its fields, a symbol as one that names its kind and
its cardinality, if that is not one.
-/

namespace Covenant

def SymbolKind.name : SymbolKind → String
  | .rule => "rule"
  | .literal => "literal"
  | .pattern => "pattern"

def Symbol.toValue (s : Symbol) : Value :=
  .object ([("kind", .text s.kind.name), ("value", .text s.value)]
    ++ if s.cardinality = .one then [] else [("card", .text s.cardinality.mark)])

/-- Where the value of a parameter comes from, and the name of its kind. -/
def ParamSource.toValue : ParamSource → Value × String
  | .const t => (.text t, "const")
  | .ref rule => (.text rule, "ref")
  | .index n => (.int n, "index")

def ActionParam.toValue (p : ActionParam) : Value :=
  .object [("key", .text p.key), ("value", p.source.toValue.1), ("kind", .text p.source.toValue.2)]

def Action.toValue (a : Action) : Value :=
  .object [("name", .text a.name), ("params", .list (a.params.map ActionParam.toValue))]

def RuleOrigin.name : RuleOrigin → String
  | .template => "template"
  | .model => "model"
  | .format => "format"
  | .base => "base"

def Rule.toValue (r : Rule) : Value :=
  .object [("name", .text r.name),
    ("alternatives", .list (r.alternatives.map fun a => .list (a.map Symbol.toValue))),
    ("action", .ofOption (r.action.map Action.toValue)), ("comment", .ofText? r.comment),
    ("origin", .text r.origin.name)]

end Covenant
