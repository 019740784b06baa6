import Covenant.Fault
import Covenant.Grammar.Rule
import Covenant.Schema.ModelFile

/-!
Types with their references resolved.

`resolve` turns the declarations of all files into types whose properties and
supertypes are fully-qualified names, with inherited properties first. A type's chain
of supertypes ends, its property names differ, and at most one property identifies
its instances.
-/

namespace Covenant

/-- A property of a type. `typeName` is the name as it is declared, `type` what it
refers to. -/
structure Property where
  name : String
  typeName : String
  type : String
  array : Bool := false
  optional : Bool := false
  identifier : Bool := false
  relationship : Bool := false
deriving DecidableEq, Repr, Inhabited

namespace Property

/-- Whether values of the property are of a primitive type. -/
def isPrimitive (p : Property) : Bool :=
  Primitive.isName p.type

/-- How many values of the property's type the text of the property has. -/
def cardinality (p : Property) : Cardinality :=
  if p.array then .many else if p.optional then .optional else .one

/-- The name of the rule that matches one value of the property. -/
def ruleName (p : Property) : String :=
  if p.relationship then "String" else p.type

/-- The declared type of the property's values, if they have parts of their own. -/
def target? (p : Property) : Option String :=
  if p.isPrimitive || p.relationship then none else some p.type

end Property

/-- A type. `properties` holds the inherited ones first. -/
structure SchemaType where
  fqn : String
  ns : String
  name : String
  kind : TypeKind
  abstract : Bool := false
  super? : Option String := none
  properties : List Property := []
  values : List String := []
deriving DecidableEq, Repr, Inhabited

namespace SchemaType

/-- Whether a type is an enumeration. -/
def isEnum (d : SchemaType) : Bool :=
  d.kind == .enumeration

def identifier? (d : SchemaType) : Option String :=
  (d.properties.find? fun p => p.identifier).map Property.name

def property? (d : SchemaType) (name : String) : Option Property :=
  d.properties.find? fun p => p.name == name

/-- The declared types of the properties, in order. -/
def targets (d : SchemaType) : List String :=
  d.properties.filterMap Property.target?

end SchemaType

/-- A model file and the file it was read from. -/
structure SourceFile where
  model : ModelFile
  file : Option String := none
deriving DecidableEq, Repr

/-- A declaration with the file it belongs to. -/
structure Declared where
  source : SourceFile
  declaration : TypeDeclaration
deriving DecidableEq, Repr

namespace Resolve

/-- All declarations by their fully-qualified names, in order. -/
def declared (files : List SourceFile) : Table Declared :=
  (files.flatMap fun f => f.model.declarations.map fun d =>
    (f.model.ns ++ "." ++ d.name, (⟨f, d⟩ : Declared))).foldl (fun t e => t.put e.1 e.2) []

/-- The name that an import gives for a short name, if any. -/
def imported? (all : Table Declared) (name imported : String) : Option String :=
  if Text.endsWith ('.' :: name.toList) imported.toList && all.has imported then some imported
  else if Text.endsWith ['.', '*'] imported.toList then
    let fqn := String.ofList (imported.toList.dropLast.dropLast) ++ "." ++ name
    if all.has fqn then some fqn else none
  else none

/-- The only system type of a short name, if there is exactly one. -/
def system? (all : Table Declared) (name : String) : Option String :=
  match all.filter fun e =>
      SystemModel.isNamespace e.2.source.model.ns && e.2.declaration.name == name with
  | [e] => some e.1
  | _ => none

/-- What a name in a file refers to: a primitive type; a fully-qualified name; or a
short name in the namespace of the file, among its imports, or among the system
types. -/
def name? (all : Table Declared) (source : SourceFile) (name : String) : Option String :=
  if Primitive.isName name then some name
  else if name.toList.contains '.' then if all.has name then some name else none
  else
    let here := source.model.ns ++ "." ++ name
    if all.has here then some here
    else (source.model.imports.findSome? (imported? all name)).or (system? all name)

/-- What a name in a file refers to, or the fault that it refers to nothing. -/
def name (all : Table Declared) (source : SourceFile) (n place : String) : Outcome String :=
  match name? all source n with
  | some fqn => .ok fqn
  | none => .error { cause := .model (.undeclared n place), file := source.file }

def property (all : Table Declared) (source : SourceFile) (fqn : String)
    (p : PropertyDeclaration) : Outcome Property := do
  let type ← name all source p.type ("property " ++ fqn ++ "." ++ p.name)
  return ⟨p.name, p.type, type, p.array, p.optional, p.identifier, p.relationship⟩

/-- The supertype that a declaration names, if it names one. -/
def super (all : Table Declared) (source : SourceFile) (fqn : String)
    (d : TypeDeclaration) : Outcome (Option String) :=
  match d.extends? with
  | some n => if n.isEmpty then .ok none else (name all source n ("supertype of " ++ fqn)).map some
  | none => .ok none

def ownType (all : Table Declared) (fqn : String) (d : Declared) : Outcome SchemaType := do
  let super? ← super all d.source fqn d.declaration
  let properties ← d.declaration.properties.mapM (property all d.source fqn)
  return { fqn, ns := d.source.model.ns, name := d.declaration.name, kind := d.declaration.kind
           abstract := d.declaration.abstract, super?, properties
           values := d.declaration.values }

/-- The chain of supertypes after those in `chain`, nearest first, where `current` is
the next. A chain has each type once, so as many steps as there are types are
enough. -/
def chainFrom (types : Table SchemaType) (fqn : String) :
    Nat → List String → Option String → Outcome (List String)
  | _, chain, none => .ok chain
  | 0, _, some _ => .fail .undefined
  | fuel + 1, chain, some current =>
    if chain.contains current then
      .fail (.model (.circular fqn (chain ++ [current])))
    else
      match types.find? current with
      | some d => chainFrom types fqn fuel (chain ++ [current]) d.super?
      | none => .fail .undefined

/-- A type followed by its supertypes, nearest first. -/
def chain (types : Table SchemaType) (fqn : String) : Outcome (List String) :=
  match types.find? fqn with
  | some d => chainFrom types fqn (types.length + 1) [fqn] d.super?
  | none => .fail .undefined

/-- A type with the properties of its supertypes in front of its own. -/
def inherit (own : Table SchemaType) (d : SchemaType) : Outcome SchemaType := do
  let ancestors ← chain own d.fqn
  return { d with
    properties := ancestors.reverse.flatMap fun a => ((own.find? a).map (·.properties)).getD [] }

/-- What is wrong with the properties of a type, if anything. -/
def propertyFault? (d : SchemaType) : Option Fault.Model :=
  let repeated := duplicates (d.properties.map Property.name)
  let identifiers := (d.properties.filter fun p => p.identifier).map Property.name
  if !repeated.isEmpty then some (.redeclared d.fqn repeated)
  else if 1 < identifiers.length then some (.identifiers d.fqn identifiers)
  else none

/-- Refuses a type whose properties are at fault; the fault is in the file of its
namespace. -/
def checkProperties (files : List SourceFile) (d : SchemaType) : Outcome Unit :=
  match propertyFault? d with
  | some c =>
    .error
      { cause := .model c, file := (files.find? fun f => f.model.ns == d.ns).bind (·.file) }
  | none => .ok ()

end Resolve

/-- The types of files, by their fully-qualified names. -/
def resolve (files : List SourceFile) : Outcome (Table SchemaType) := do
  let all := Resolve.declared files
  let own ← all.mapM fun e => (Resolve.ownType all e.1 e.2).map (e.1, ·)
  let types ← own.mapM fun e => (Resolve.inherit own e.2).map (e.1, ·)
  types.forM fun e => Resolve.checkProperties files e.2
  return types

end Covenant
