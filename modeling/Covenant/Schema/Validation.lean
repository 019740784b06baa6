import Covenant.Schema.JsonSchema

/-!
Checking data against types.

`Catalog.violations` lists every place at which a value is not an instance of a type,
in the order of the paths to them. A whole number is an integer, whether or not it is
a double, and truth values are no numbers. For an optional property it is told only
that the value is neither null nor of the declared type, not why.

A `Validator` compiles each type once. Until its catalog changes it answers as the catalog does.
-/

namespace Covenant

/-- What a value lacks at some place. -/
inductive Deviation where
  | kind (value : Value) (expected : String)
  | constant (expected : String)
  | missing (name : String)
  | unexpected (names : List String)
  | notListed (value : Value) (values : List String)
  | noChoice (value : Value)

def Deviation.message : Deviation → String
  | .kind v expected => v.quoted ++ " is not of type '" ++ expected ++ "'"
  | .constant expected => Text.Quoted.quote expected ++ " was expected"
  | .missing name => Text.Quoted.quote name ++ " is a required property"
  | .unexpected names =>
    "Additional properties are not allowed (" ++ ", ".intercalate (names.map Text.Quoted.quote)
      ++ (if names.length = 1 then " was" else " were") ++ " unexpected)"
  | .notListed v values => v.quoted ++ " is not one of " ++ Text.Quoted.quoteAll values
  | .noChoice v => v.quoted ++ " is not valid under any of the given schemas"

/-- A deviation and the path to its place. -/
structure Violation where
  path : List String
  deviation : Deviation

namespace Violation

/-- The wording of a violation, after its path. -/
def message (v : Violation) : String :=
  (if v.path.isEmpty then "root" else ".".intercalate v.path) ++ ": " ++ v.deviation.message

def under (step : String) (v : Violation) : Violation :=
  { v with path := step :: v.path }

def sort (vs : List Violation) : List Violation :=
  vs.mergeSort fun v w => Text.pathLe v.path w.path

end Violation

namespace Primitive

/-- How the kind of value that a primitive type has is called. -/
def valueKind : Primitive → String
  | .string | .dateTime => "string"
  | .boolean => "boolean"
  | .integer | .long => "integer"
  | .double => "number"

/-- Whether a value is of the kind that a primitive type has. -/
def admits : Primitive → Value → Bool
  | .string, .text _ | .dateTime, .text _ | .boolean, .bool _ => true
  | .integer, .int _ | .long, .int _ | .double, .int _ | .double, .double _ => true
  | .integer, .double x | .long, .double x => Decimal.isWhole x
  | _, _ => false

def violations (t : Primitive) (v : Value) : List Violation :=
  if t.admits v then [] else [⟨[], .kind v t.valueKind⟩]

end Primitive

namespace SchemaType

def enumViolations (d : SchemaType) (v : Value) : List Violation :=
  match v with
  | .text s => if d.values.contains s then [] else [⟨[], .notListed v d.values⟩]
  | v => [⟨[], .notListed v d.values⟩]

/-- Deviations of the name under which instances name their type. -/
def classViolations (d : SchemaType) (v : Value) : List Violation :=
  match v with
  | .text s => if s = d.fqn then [] else [⟨[classKey], .constant d.fqn⟩]
  | _ => [⟨[classKey], .constant d.fqn⟩]

/-- Names that have to be there and are not, and names that are there and may not. -/
def nameViolations (d : SchemaType) (names : List String) : List Violation :=
  let required := classKey :: (d.properties.filter fun p => !p.optional).map Property.name
  let allowed := classKey :: d.properties.map Property.name
  let unexpected := (names.filter fun n => !allowed.contains n).mergeSort fun a b => a ≤ b
  ((required.filter fun n => !names.contains n).map fun n => ⟨[], .missing n⟩)
    ++ if unexpected.isEmpty then [] else [⟨[], .unexpected unexpected⟩]

end SchemaType

/-- A value with its deviations from each declared type, and its items with theirs. -/
structure Inspection where
  value : Value
  violations : String → List Violation
  items : List (Value × (String → List Violation)) := []

namespace Inspection

/-- Deviations of one value from the type of a property, where `declared` tells those
from declared types. -/
def valueViolations (p : Property) (v : Value) (declared : String → List Violation) :
    List Violation :=
  if p.relationship then Primitive.violations .string v
  else
    match Primitive.ofName? p.type with
    | some t => t.violations v
    | none => declared p.type

/-- Deviations from a property, whether or not it is optional. -/
def requiredViolations (i : Inspection) (p : Property) : List Violation :=
  if p.array then
    match i.value with
    | .list _ => i.items.zipIdx.flatMap fun ((v, declared), index) =>
        (valueViolations p v declared).map (Violation.under (toString index))
    | v => [⟨[], .kind v "array"⟩]
  else valueViolations p i.value i.violations

def propertyViolations (i : Inspection) (p : Property) : List Violation :=
  let found := i.requiredViolations p
  if p.optional then
    if found.isEmpty || i.value.isNull then [] else [⟨[], .noChoice i.value⟩]
  else found

end Inspection

namespace SchemaType

/-- Deviations of an object from a type that is no enumeration. -/
def objectViolations (d : SchemaType) (entries : Table Inspection) : List Violation :=
  ((entries.find? classKey).map fun i => d.classViolations i.value).getD []
    ++ (d.properties.flatMap fun p =>
      match entries.find? p.name with
      | some i => (i.propertyViolations p).map (Violation.under p.name)
      | none => [])
    ++ d.nameViolations entries.names

end SchemaType

namespace Catalog

/-- Deviations of a value from a declared type, where `entries` are those of an
object. -/
def violationsBy (c : Catalog) (v : Value) (entries : Table Inspection) (fqn : String) :
    List Violation :=
  match c.types.find? fqn with
  | none => []
  | some d =>
    if d.isEnum then d.enumViolations v
    else if v.isObject then d.objectViolations entries
    else [⟨[], .kind v "object"⟩]

mutual

/-- Deviations of a value from each declared type. -/
def typeViolations (c : Catalog) : Value → String → List Violation
  | .object fields => c.violationsBy (.object fields) (c.inspectEntries fields)
  | v => c.violationsBy v []

def inspectEntries (c : Catalog) : List (String × Value) → Table Inspection
  | [] => []
  | (k, v) :: fs => (k, ⟨v, c.typeViolations v, c.inspectItems v⟩) :: c.inspectEntries fs

def inspectItems (c : Catalog) : Value → List (Value × (String → List Violation))
  | .list vs => c.inspectAll vs
  | _ => []

def inspectAll (c : Catalog) : List Value → List (Value × (String → List Violation))
  | [] => []
  | v :: vs => (v, c.typeViolations v) :: c.inspectAll vs

end

/-- The deviations of data from a type, in order, worded. -/
def violations (c : Catalog) (fqn : String) (v : Value) : Outcome (List String) := do
  let _ ← c.components fqn
  return (Violation.sort (c.typeViolations v fqn)).map Violation.message

def namedType (c : Catalog) (v : Value) : Outcome (Except String String) :=
  match v.get? classKey with
  | none => .ok (.error "root: data does not declare a $class")
  | some (.list _) | some (.object _) => .fail .undefined
  | some name =>
    let fqn := name.plain
    .ok (if name.text?.isSome && c.has fqn then .ok fqn
      else .error ("root: $class " ++ fqn ++ " is not declared"))

/-- The type that data is checked against, or why there is none. -/
def typeAsked (c : Catalog) (v : Value) : Option String → Outcome (Except String String)
  | some fqn => .ok (.ok fqn)
  | none => c.namedType v

/-- The violations of data: of the given type, or of the one it names itself. -/
def validate (c : Catalog) (v : Value) (type : Option String := none) :
    Outcome (List String) := do
  match type with
  | some fqn => c.violations fqn v
  | none =>
    match ← c.namedType v with
    | .ok fqn => c.violations fqn v
    | .error message => return [message]

def accept (v : Value) (type : Option String) (found : List String) : Outcome Unit := do
  if found.isEmpty then return ()
  let named := match type with
    | some t => if t.isEmpty then none else some t
    | none => none
  let target := named.getD ((v.get? classKey).map Value.plain |>.getD "None")
  .fail (.validity (.nonconforming target found))

def checkData (c : Catalog) (v : Value) (type : Option String := none) : Outcome Unit := do
  accept v type (← c.validate v type)

end Catalog

/-! ### Validators -/

/-- A validator keeps the schemas that it has compiled. A schema goes on describing the types of
the catalog as they were when it was compiled, so for each compiled type that catalog is kept. -/
structure Validator where
  catalog : Catalog
  compiled : Table Catalog := []

namespace Validator

def fresh (c : Catalog) : Validator :=
  { catalog := c }

/-- The catalog that a type is checked in. A type is compiled the first time it is asked for. -/
def compile (s : Validator) (fqn : String) : Outcome Catalog × Validator :=
  match s.compiled.find? fqn with
  | some c => (.ok c, s)
  | none =>
    match s.catalog.components fqn with
    | .ok _ => (.ok s.catalog, { s with compiled := s.compiled.put fqn s.catalog })
    | .error f => (.error f, s)

/-- The violations of data: of the given type, or of the one it names itself, which has to be
declared now. -/
def validate (s : Validator) (v : Value) (type : Option String := none) :
    Outcome (List String) × Validator :=
  match s.catalog.typeAsked v type with
  | .error f => (.error f, s)
  | .ok (.error message) => (.ok [message], s)
  | .ok (.ok fqn) => ((s.compile fqn).1.bind fun c => c.violations fqn v, (s.compile fqn).2)

def check (s : Validator) (v : Value) (type : Option String := none) : Outcome Unit × Validator :=
  ((s.validate v type).1.bind (Catalog.accept v type), (s.validate v type).2)

/-- What a validator and its catalog are asked to do. -/
inductive Step where
  | add (v : Value) (file : Option String)
  | validate (v : Value) (type : Option String)
  | check (v : Value) (type : Option String)

def step (s : Validator) : Step → Validator
  | .add v file => { s with catalog := (s.catalog.add v file).2 }
  | .validate v type => (s.validate v type).2
  | .check v type => (s.check v type).2

def run (s : Validator) (steps : List Step) : Validator :=
  steps.foldl step s

end Validator

end Covenant
