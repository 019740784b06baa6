import Covenant.Format.Monetary
import Covenant.Value.Shape

/-!
Model files.

A model file declares the types of one namespace: concepts and the like with
properties, and enumerations with values. Names in a file are short or fully
qualified; what they refer to is decided only together with all other files.
Reading a file out of a value reports every misfit at once.

Every model may use the types of the library itself: the abstract types of clauses and
contracts, which templates extend, and amounts of money and durations.
-/

namespace Covenant

/-- The primitive types. -/
inductive Primitive where
  | string
  | integer
  | long
  | double
  | boolean
  | dateTime
deriving DecidableEq, Repr

namespace Primitive

def names : List (String × Primitive) :=
  [("String", .string), ("Integer", .integer), ("Long", .long), ("Double", .double),
    ("Boolean", .boolean), ("DateTime", .dateTime)]

def ofName? (name : String) : Option Primitive :=
  names.lookup name

/-- Whether a name is that of a primitive type. -/
def isName (name : String) : Bool :=
  (ofName? name).isSome

end Primitive

/-- The kinds of declared types. -/
inductive TypeKind where
  | concept
  | asset
  | participant
  | transaction
  | event
  | enumeration
deriving DecidableEq, Repr, Inhabited

namespace TypeKind

def names : List (String × TypeKind) :=
  [("concept", .concept), ("asset", .asset), ("participant", .participant),
    ("transaction", .transaction), ("event", .event), ("enum", .enumeration)]

def name : TypeKind → String
  | .concept => "concept"
  | .asset => "asset"
  | .participant => "participant"
  | .transaction => "transaction"
  | .event => "event"
  | .enumeration => "enum"

end TypeKind

/-- A property as it is declared. -/
structure PropertyDeclaration where
  name : String
  type : String
  array : Bool := false
  optional : Bool := false
  identifier : Bool := false
  relationship : Bool := false
deriving DecidableEq, Repr

/-- A type as it is declared. -/
structure TypeDeclaration where
  kind : TypeKind
  name : String
  extends? : Option String := none
  abstract : Bool := false
  properties : List PropertyDeclaration := []
  values : List String := []
deriving DecidableEq, Repr

/-- The declarations of one namespace. -/
structure ModelFile where
  ns : String
  imports : List String := []
  declarations : List TypeDeclaration := []
deriving DecidableEq, Repr

/-! ### Names -/

/-- Whether a text is an identifier: letters, digits and underscores, not beginning
with a digit. -/
def isIdentifier : List Char → Bool
  | [] => false
  | c :: cs => (c.isAlpha || c == '_') && cs.all fun c => c.isAlphanum || c == '_'

/-- Whether a text is recognized as an identifier; a line feed at its end is left out. -/
def isName (s : String) : Bool :=
  isIdentifier (Text.withoutLineFeed s.toList)

/-- Whether a text is recognized as identifiers with points between them; a line feed at
its end is left out. -/
def isDottedName (s : String) : Bool :=
  (Text.splitAt '.' (Text.withoutLineFeed s.toList)).all isIdentifier

/-- The members of a list that occur more than once, sorted, each once. -/
def duplicates (xs : List String) : List String :=
  ((xs.filter fun x => 1 < xs.count x).mergeSort fun a b => a ≤ b).eraseDups

/-! ### Reading -/

open Shape

def nameReading (what : String) (ok : String → Bool) (v : Value) : Checked String :=
  Checked.refuse (fun s => if ok s then none else some ("Invalid " ++ what ++ " '" ++ s ++ "'")) (text v)

def PropertyDeclaration.read (v : Value) : Checked PropertyDeclaration :=
  (record "PropertyDeclaration" v).bind fun fs =>
    Checked.join (Checked.join (Checked.join (Checked.join (Checked.join (Checked.join (.ok PropertyDeclaration.mk)
      (field fs "name" (nameReading "property name" isName)))
      (field fs "type" (nameReading "type name" isDottedName)))
      (fieldOr fs "array" false truth))
      (fieldOr fs "optional" false truth))
      (fieldOr fs "identifier" false truth))
      (fieldOr fs "relationship" false truth)

/-- Reads the name of a type, which must not be that of a primitive type. -/
def typeNameReading (v : Value) : Checked String :=
  Checked.refuse (fun s =>
    if Primitive.isName s then some ("Type name '" ++ s ++ "' shadows a primitive type")
    else none) (nameReading "type name" isName v)

/-- What is wrong with the shape of a type, if anything: enumerations have values,
each once, and no properties; other types have no values; and no property is declared
twice. -/
def TypeDeclaration.refusal? (d : TypeDeclaration) : Option String :=
  let properties := duplicates (d.properties.map PropertyDeclaration.name)
  if d.kind = .enumeration then
    if !d.properties.isEmpty then some ("Enum " ++ d.name ++ " cannot declare properties")
    else if d.values.isEmpty then some ("Enum " ++ d.name ++ " must declare at least one value")
    else if !(duplicates d.values).isEmpty then
      some ("Enum " ++ d.name ++ " declares duplicate values")
    else none
  else if !d.values.isEmpty then
    some ("Only enums can declare values, " ++ d.name ++ " is a " ++ d.kind.name)
  else if !properties.isEmpty then
    some ("Type " ++ d.name ++ " declares duplicate properties: " ++ Text.Quoted.quoteAll properties)
  else none

def TypeDeclaration.read (v : Value) : Checked TypeDeclaration :=
  Checked.refuse TypeDeclaration.refusal? <| (record "TypeDeclaration" v).bind fun fs =>
    Checked.join (Checked.join (Checked.join (Checked.join (Checked.join (Checked.join (.ok TypeDeclaration.mk)
      (field fs "kind" (oneOf TypeKind.names)))
      (field fs "name" typeNameReading))
      (fieldOr fs "extends" none (orNull text)))
      (fieldOr fs "abstract" false truth))
      (fieldOr fs "properties" [] (items PropertyDeclaration.read)))
      (fieldOr fs "values" [] (items text))

def ModelFile.read (v : Value) : Checked ModelFile :=
  (record "ModelFile" v).bind fun fs =>
    Checked.join (Checked.join (Checked.join (.ok ModelFile.mk)
      (field fs "namespace" (nameReading "namespace" isDottedName)))
      (fieldOr fs "imports" [] (items text)))
      (fieldOr fs "declarations" [] (items TypeDeclaration.read))

/-! ### As values -/

def PropertyDeclaration.toValue (p : PropertyDeclaration) : Value :=
  .object [("name", .text p.name), ("type", .text p.type), ("array", .bool p.array),
    ("optional", .bool p.optional), ("identifier", .bool p.identifier),
    ("relationship", .bool p.relationship)]

def TypeDeclaration.toValue (d : TypeDeclaration) : Value :=
  .object [("kind", .text d.kind.name), ("name", .text d.name), ("extends", .ofText? d.extends?),
    ("abstract", .bool d.abstract),
    ("properties", .list (d.properties.map PropertyDeclaration.toValue)),
    ("values", .texts d.values)]

def ModelFile.toValue (m : ModelFile) : Value :=
  .object [("namespace", .text m.ns), ("imports", .texts m.imports),
    ("declarations", .list (m.declarations.map TypeDeclaration.toValue))]

/-! ### The types of the library -/

/-- What a template describes. -/
inductive TemplateKind where
  | contract
  | clause
deriving DecidableEq, Repr, Inhabited

namespace TemplateKind

def names : List (String × TemplateKind) :=
  [("contract", .contract), ("clause", .clause)]

def name : TemplateKind → String
  | .contract => "contract"
  | .clause => "clause"

/-- The type that the types of a kind of template extend. -/
def baseType : TemplateKind → String
  | .contract => "org.clausegram.template.Contract"
  | .clause => "org.clausegram.template.Clause"

end TemplateKind

namespace SystemModel

/-- The namespaces of the types that every model may use. -/
def namespaces : List String :=
  ["org.clausegram.template", "org.clausegram.money", "org.clausegram.time"]

/-- Whether a namespace is one of those. -/
def isNamespace (ns : String) : Bool :=
  namespaces.contains ns

def key (name : String) : PropertyDeclaration :=
  { name, type := "String", identifier := true }

def files : List ModelFile :=
  [{ ns := "org.clausegram.template"
     declarations :=
       [{ kind := .asset, name := "Clause", abstract := true, properties := [key "clauseId"] },
        { kind := .asset, name := "Contract", abstract := true
          properties := [key "contractId"] },
        { kind := .participant, name := "Party", properties := [key "partyId"] }] },
   { ns := "org.clausegram.money"
     declarations :=
       [{ kind := .concept, name := "MonetaryAmount"
          properties :=
            [{ name := "doubleValue", type := "Double" },
             { name := "currencyCode", type := "String" }] }] },
   { ns := "org.clausegram.time"
     declarations :=
       [{ kind := .enumeration, name := "TemporalUnit"
          values := ["seconds", "minutes", "hours", "days", "weeks"] },
        { kind := .concept, name := "Duration"
          properties :=
            [{ name := "amount", type := "Long" }, { name := "unit", type := "TemporalUnit" }] }] }]

end SystemModel

end Covenant
