import Covenant.Grammar.RuleSet
import Covenant.Schema.JsonSchema

/-!
Grammar rules of types.

Each type that a template type leads to has a rule of its name: a pattern for a
primitive type, a choice of texts for an enumeration, a choice of subtypes for an
abstract type, and otherwise the properties in order with a space between them.
-/

namespace Covenant

def anyRule : String := "Any"

namespace Primitive

/-- The regular expression for the texts of a primitive type and the action that
turns them into values. Dates have formats instead. -/
def pattern? : Primitive → Option (String × String)
  | .string => some ("\"(?:[^\"\\\\]|\\\\.)*\"", "string")
  | .integer | .long => some ("[+-]?[0-9]+", "integer")
  | .double => some ("[+-]?[0-9]+(?:\\.[0-9]+)?(?:[eE][+-]?[0-9]+)?", "double")
  | .boolean => some ("true|false", "boolean")
  | .dateTime => none

end Primitive

def patternRule (name regex action : String) : Rule :=
  { name, alternatives := [[.pattern regex]], action := some ⟨action, []⟩
    comment := some (name ++ " value"), origin := .base }

def dateRules (s : Settings) : Outcome (List Rule) := do
  let written ← DateTime.rule s.dateFormat
  return [written,
    { name := "DateTime", alternatives := [[.rule written.name]]
      comment := some ("DateTime value, default format " ++ s.dateFormat), origin := .base }]

/-- The rules of the primitive types and of any text. -/
def primitiveRules (s : Settings) : Outcome (List Rule) := do
  let dates ← dateRules s
  let patterns := Primitive.names.filterMap fun (name, t) =>
    t.pattern?.map fun (regex, action) => patternRule name regex action
  return patterns ++ dates ++ [patternRule anyRule "[\\s\\S]+" "text"]

namespace SchemaType

def ruleOf (d : SchemaType) (alternatives : List (List Symbol)) (action : Option Action) :
    Rule :=
  { name := d.fqn, alternatives, action, comment := some d.fqn, origin := .model }

/-- The rule of an enumeration: one of its values. -/
def enumRule (d : SchemaType) : Rule :=
  d.ruleOf (d.values.map fun v => [.literal v]) (some ⟨"enum", []⟩)

/-- The symbol of one value, or as many as there may be, of a property. -/
def propertySymbol (p : Property) : Symbol :=
  .rule p.ruleName p.cardinality

/-- The rule of a type with properties: their values with spaces between them, or the
name of the type if it has none. -/
def conceptRule (d : SchemaType) : Rule :=
  let symbols := (d.properties.map propertySymbol).intersperse (.literal " ")
  let params : List ActionParam := ⟨classKey, .const d.fqn⟩
    :: d.properties.zipIdx.map fun (p, i) => ⟨p.name, .index (2 * i)⟩
  d.ruleOf [if symbols.isEmpty then [.literal d.name] else symbols]
    (some ⟨"object", params⟩)

/-- The rules of amounts of money, in their default format. -/
def monetaryRules (d : SchemaType) : Outcome (List Rule) := do
  let written ← Monetary.rule Monetary.defaultFormat
  return [written,
    { d.ruleOf [[.rule written.name]] none with
      comment := some (d.fqn ++ ", default format " ++ Monetary.defaultFormat) }]

end SchemaType

namespace Catalog

/-- The rule of an abstract type: one of its subtypes. -/
def abstractRule (c : Catalog) (d : SchemaType) : Outcome Rule := do
  let subtypes ← c.concreteSubtypes d.fqn
  if subtypes.isEmpty then .fail (.model (.noSubtypes d.fqn))
  else return d.ruleOf (subtypes.map fun s => [.rule s.fqn]) none

def rulesOf (c : Catalog) (d : SchemaType) : Outcome (List Rule) :=
  if d.isEnum then .ok [d.enumRule]
  else if d.fqn = Monetary.typeName then d.monetaryRules
  else if d.abstract then (c.abstractRule d).map ([·])
  else .ok [d.conceptRule]

/-- The types that texts of a type may hold: the types of its properties, and the
subtypes of an abstract type. -/
def textTypes (c : Catalog) (fqn : String) : Outcome (List SchemaType) :=
  c.explore (fun d => do
    let subtypes ← if d.abstract then c.concreteSubtypes d.fqn else pure []
    return subtypes.map (·.fqn) ++ d.targets) c.exploreSteps [] [fqn]

def addNew (s : RuleSet) (rules : List Rule) : Outcome RuleSet :=
  match s.addAll true rules with
  | (s, none) => .ok s
  | (_, some f) => .error f

/-- The rules of all types that a template type leads to, except its own. -/
def rules (c : Catalog) (s : Settings) (root : String) : Outcome RuleSet := do
  let base ← primitiveRules s
  let set ← base.foldlM RuleSet.add {}
  let types ← c.textTypes root
  (types.filter fun d => d.fqn != root).foldlM (fun set d => do addNew set (← c.rulesOf d)) set

end Catalog

end Covenant
