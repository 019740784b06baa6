import Covenant.Schema.JsonSchema

/-!
The text of data values.

Values are written as the rules of their types read them: texts as quoted literals,
dates and amounts of money in their default formats, enumeration values as they are,
and other types as their properties with a space between them.
-/

namespace Covenant

namespace Decimal

/-- Whole doubles of this size and beyond are written with an exponent. -/
def wholeLimit : Nat := 10000000000000000

/-- A double as a number in running text: whole numbers of less than seventeen digits
have no point. -/
def plain (x : Float) : String :=
  match whole? x with
  | some n => if isWhole x && n.natAbs < wholeLimit then toString n else text x
  | none => text x

end Decimal

def writeNumber (v : Value) : Outcome String :=
  match v with
  | .double x => .ok (Decimal.plain x)
  | .int n =>
    if n.natAbs < Decimal.wholeLimit then .ok (toString n)
    else (Outcome.ofOption (Decimal.ofInt? n)).map Decimal.text
  | .bool b => .ok (if b then "1" else "0")
  | .text s => do
    let x ← Outcome.ofOption (Decimal.readFloat? s)
    if Decimal.isWhole x then .fail .undefined else return Decimal.text x
  | _ => .fail .undefined

def Primitive.write (s : Settings) (t : Primitive) (v : Value) : Outcome String :=
  match t with
  | .string => .ok (Json.unescaped v)
  | .boolean => .ok (if v.isSet then "true" else "false")
  | .integer | .long => (Outcome.ofOption v.toInt?).map toString
  | .double => writeNumber v
  | .dateTime => DateTime.write v s.dateFormat

namespace Catalog

def writeFormatted (p : Property) (v : Value) (format : String) : Outcome String :=
  match Formatted.ofType? p.type with
  | some k => k.write v format
  | none => .fail (.format (.unformattable p.type))

/-- The declaration by which a value of a type is written: that of the subtype which
the value names, if the type is abstract or the value names another. -/
def actualType (c : Catalog) (d : SchemaType) (v : Value) : Outcome SchemaType :=
  let class? := v.get? classKey
  let other := match class? with
    | some (.text s) => s != d.fqn
    | some _ => true
    | none => false
  if d.abstract || other then
    match class? with
    | none | some (.list _) | some (.object _) => .fail .undefined
    | some (.text s) => c.get s
    | some v => .fail (.model (.unknownType v.plain))
  else .ok d

/-- Writes nothing for an absent value, if it may be absent. -/
def writeAbsent (p : Property) : Outcome String :=
  if p.optional || p.array then .ok ""
  else .fail (.structural (.missingValue p.name))

end Catalog

/-- A value with the texts it has as each type. The members of a value are the items
of a list, the characters of a text and the keys of an object. -/
structure Writable where
  value : Value
  write : String → Outcome String
  members : Option (List (Value × (String → Outcome String))) := none

namespace Writable

/-- Writes one value of a property, where `write` writes it as each type. -/
def one (p : Property) (format : Option String) (v : Value)
    (write : String → Outcome String) : Outcome String :=
  if p.relationship then .ok (Json.unescaped (.text v.plain))
  else
    match format with
    | some f => Catalog.writeFormatted p v f
    | none => write p.type

/-- Writes the value of a property. The members of an array follow each other. -/
def property (w : Writable) (p : Property) (format : Option String) : Outcome String :=
  if w.value.isNull then Catalog.writeAbsent p
  else if p.array then do
    let members ← Outcome.ofOption w.members
    let texts ← members.mapM fun (v, write) => one p format v write
    return String.join texts
  else one p format w.value w.write

end Writable

namespace Catalog

/-- Writes the properties of a value, where `entries` are those of an object. -/
def writeProperties (d : SchemaType) (v : Value) (entries : Table Writable) :
    Outcome String := do
  unless v.isObject do Outcome.fail .undefined
  let texts ← d.properties.mapM fun p =>
    match entries.find? p.name with
    | some w => w.property p none
    | none => writeAbsent p
  return " ".intercalate texts

/-- Writes a value as a type, where `entries` are those of an object. -/
def writeBy (c : Catalog) (s : Settings) (v : Value) (entries : Table Writable)
    (type : String) : Outcome String :=
  match Primitive.ofName? type with
  | some p => p.write s v
  | none =>
    if type = Monetary.typeName then Monetary.write v Monetary.defaultFormat
    else do
      let d ← c.get type
      if d.isEnum then return v.plain
      let d ← c.actualType d v
      if d.properties.isEmpty then return d.name
      writeProperties d v entries

def writeText (c : Catalog) (s : Settings) (t : String) : Value × (String → Outcome String) :=
  (.text t, c.writeBy s (.text t) [])

mutual

def writeAs (c : Catalog) (s : Settings) : Value → String → Outcome String
  | .object fields => c.writeBy s (.object fields) (c.writableEntries s fields)
  | v => c.writeBy s v []

/-- The entries of an object, ready to be written. -/
def writableEntries (c : Catalog) (s : Settings) : List (String × Value) → Table Writable
  | [] => []
  | (k, v) :: fs => (k, ⟨v, c.writeAs s v, c.writableMembers s v⟩) :: c.writableEntries s fs

/-- The members of a value, ready to be written. -/
def writableMembers (c : Catalog) (s : Settings) :
    Value → Option (List (Value × (String → Outcome String)))
  | .list vs => some (c.writableItems s vs)
  | .text t => some (t.toList.map fun ch => c.writeText s (toString ch))
  | .object fields => some (fields.map fun e => c.writeText s e.1)
  | _ => none

/-- The items of a list, ready to be written. -/
def writableItems (c : Catalog) (s : Settings) :
    List Value → List (Value × (String → Outcome String))
  | [] => []
  | v :: vs => (v, c.writeAs s v) :: c.writableItems s vs

end

/-- A value, ready to be written. -/
def writable (c : Catalog) (s : Settings) (v : Value) : Writable :=
  ⟨v, c.writeAs s v, c.writableMembers s v⟩

/-- Writes the value of a property, in a format if one is given. -/
def writeProperty (c : Catalog) (s : Settings) (p : Property) (v : Value)
    (format : Option String := none) : Outcome String :=
  (c.writable s v).property p format

end Catalog

end Covenant
