import Covenant.Schema.Catalog

/-!
JSON Schemas of types.

The schema of a type refers to one definition for each type that its instances are
made of. Instances carry the name of their type under the key `$class`. An optional
property may be absent or null, and nothing but the declared properties is allowed.
-/

namespace Covenant

/-- The key under which instances name their type. -/
def classKey : String := "$class"

namespace JsonSchema

def dialect : String := "https://json-schema.org/draft/2020-12/schema"

def primitive : Primitive → List (String × Value)
  | .string => [("type", .text "string")]
  | .boolean => [("type", .text "boolean")]
  | .integer | .long => [("type", .text "integer")]
  | .double => [("type", .text "number")]
  | .dateTime => [("type", .text "string"), ("format", .text "date-time")]

def reference (fqn : String) : String × Value :=
  ("$ref", .text ("#/$defs/" ++ fqn))

def item (p : Property) : List (String × Value) :=
  if p.relationship then [("type", .text "string")]
  else
    match Primitive.ofName? p.type with
    | some primitiveType => primitive primitiveType
    | none => [reference p.type]

def property (p : Property) : Value :=
  let one : Value := .object (item p)
  let all : Value := if p.array then .object [("type", .text "array"), ("items", one)] else one
  if p.optional then
    .object [("anyOf", .list [all, .object [("type", .text "null")]])]
  else all

def definition (d : SchemaType) : Value :=
  if d.isEnum then .object [("enum", .texts d.values)]
  else
    .object
      [("type", .text "object"),
        ("properties", .object ((classKey, .object [("const", .text d.fqn)])
          :: d.properties.map fun p => (p.name, property p))),
        ("required", .texts (classKey
          :: (d.properties.filter fun p => !p.optional).map Property.name)),
        ("additionalProperties", .bool false)]

end JsonSchema

namespace Catalog

/-- The types that instances of a type are made of. -/
def components (c : Catalog) (fqn : String) : Outcome (List SchemaType) :=
  c.explore (fun d => .ok (if d.isEnum then [] else d.targets)) c.exploreSteps [] [fqn]

def jsonSchema (c : Catalog) (fqn : String) : Outcome Value := do
  let types ← c.components fqn
  return .object
    [("$schema", .text JsonSchema.dialect), JsonSchema.reference fqn,
      ("$defs", .object (types.map fun d => (d.fqn, JsonSchema.definition d)))]

end Catalog

/-! ### Definitions depth first

A type is entered in the table of definitions before the types of its properties are looked at,
under a schema that is not finished yet, so that a type which leads back to it finds it there.
Its definition takes that place once all of them are there. -/

namespace JsonSchema

/-- The schema under which a type is entered before it is defined. -/
def unfinished : Value := .object []

end JsonSchema

namespace Catalog

/-- Adds a type to a table of definitions, with all types that instances of it are made of and
that are not there. Types are nested at most `depth` deep. -/
def define (c : Catalog) : Nat → Table Value → String → Outcome (Table Value)
  | 0, _, _ => .fail .undefined
  | depth + 1, defs, fqn =>
    if defs.has fqn then .ok defs
    else do
      let d ← c.get fqn
      if d.isEnum then return defs.put fqn (JsonSchema.definition d)
      else
        let defs ← d.targets.foldlM (fun defs y => c.define depth defs y)
          (defs.put fqn JsonSchema.unfinished)
        return defs.put fqn (JsonSchema.definition d)

/-- The definitions of a type and of all types that instances of it are made of. Every step
down enters another type, so the types of the catalog are enough of them. -/
def definitions (c : Catalog) (fqn : String) : Outcome (Table Value) :=
  c.define (c.types.length + 1) [] fqn

end Catalog

end Covenant
