import Covenant.Document.Basic
import Covenant.Markup.Node
import Covenant.Schema.Writing

/-!
Drafting: data laid out by a template.

Every node of a template makes one node of the document, except for empty texts. A
bound value is written as its rule reads it; a block lays out the parts of a value, and
a list each of its items with what stands in front of it.
-/

namespace Covenant

/-- What drafting depends on. -/
structure Drafter where
  catalog : Catalog
  settings : Settings := {}

namespace Drafter

open Markup

/-- Lays out a level of a template for data of a type. -/
abbrev Layout := Value → SchemaType → Outcome (List Document)

/-- A node of a level with the way to lay it out. -/
structure Member where
  node : Node
  layout : Layout

def property (d : SchemaType) (field : String) : Outcome Property :=
  match d.property? field with
  | some p => .ok p
  | none => .fail (.structural (.undeclaredProperty field d.fqn))

/-- The entry of data under a field; only objects have fields. -/
def entry (data : Value) (field : String) : Outcome Value :=
  match data with
  | .object fields => .ok ((Table.find? fields field).getD .null)
  | _ => .fail .undefined

/-- The type by which the value of a property is laid out: the one that it names, or
else that of the property. -/
def valueType (c : Drafter) (p : Property) (v : Value) : Outcome SchemaType :=
  match v.get? classKey with
  | none => c.catalog.get p.type
  | some (.text name) => c.catalog.get name
  | some (.list _) | some (.object _) => .fail .undefined
  | some other => .fail (.model (.unknownType other.plain))

/-! ### Nodes without parts -/

/-- A text, unless it is empty. -/
def text (body : String) : Layout := fun _ _ =>
  .ok (if body.isEmpty then [] else [Document.ofText body])

def conditional (field whenTrue whenFalse : String) : Layout := fun data d => do
  let _ ← property d field
  let v ← entry data field
  return [.node .conditional (some (if v.isSet then whenTrue else whenFalse)) (some field)
    (.bool v.isSet) [("when_true", .text whenTrue), ("when_false", .text whenFalse)] []]

def boundValue (c : Drafter) (field : String) (format : Option String) : Layout := fun data d => do
  let p ← property d field
  let v ← entry data field
  let written ← c.catalog.writeProperty c.settings p v format
  return [.node .variable (some written) (some field) v
    [("type", .text p.type), ("format", .ofText? format)] []]

def formula (body : String) : Layout := fun _ _ =>
  .ok [.node .formula (some ("\x7b\x7b% " ++ body ++ " %\x7d\x7d")) none (.text body) [] []]

/-- A node of a kind that templates do not have cannot be laid out. -/
def foreign (field : Option String) : Layout := fun _ d => do
  let field ← Outcome.ofOption field
  let _ ← property d field
  .fail .undefined

/-! ### Blocks -/

/-- Lays out the members of a level one after the other. -/
def level (members : List Member) : Layout := fun data d => do
  let parts ← members.mapM fun m => m.layout data d
  return parts.flatten

def textMember (n : Node) : Member :=
  match n with
  | .text body .. => ⟨n, text body⟩
  | n => ⟨n, text ""⟩

/-- A clause or a value with a level of its own. It is empty if there is no value. -/
def nested (c : Drafter) (kind : DocumentKind) (field : String) (members : List Member) :
    Layout := fun data d => do
  let p ← property d field
  let v ← entry data field
  let children ← if v.isNull then pure [] else do
    let type ← c.valueType p v
    level members v type
  return [.node kind none (some field) .null [] children]

/-- An item of a list with the text in front of it. -/
def item (c : Drafter) (p : Property) (start : String) (members : List Member) (v : Value) :
    Outcome Document := do
  let led ← leadMembers Member.node textMember start members
  let type ← c.valueType p v
  let children ← level led v type
  return .node .listItem none none .null [] children

/-- The items of a list, the first of which has a text of its own in front of it. -/
def list (c : Drafter) (style : ListStyle) (field : String) (members : List Member) :
    Layout := fun data d => do
  let p ← property d field
  let v ← entry data field
  let (first, later) := style.leads c.settings
  let vs ← if v.isSet then Outcome.ofOption v.members? else pure []
  let children ← vs.zipIdx.mapM fun (v, i) =>
    c.item p (if i = 0 then first else later) members v
  return [.node .list none (some field) .null
    [("list_type", .text style.tag), ("separator", .text later)] children]

mutual

def node (c : Drafter) : Node → Layout
  | .text body _ _ => text body
  | .binding field format _ => c.boundValue field format
  | .formatted field format _ => c.boundValue field (some format)
  | .shown field whenTrue _ => conditional field whenTrue ""
  | .choice field whenTrue whenFalse _ => conditional field whenTrue whenFalse
  | .block kind field nestedNodes _ =>
    let members := c.members nestedNodes
    match kind with
    | .clause => c.nested .clause field members
    | .within => c.nested .within field members
    | .list style => c.list style field members
  | .expression body _ => formula body
  | .foreign _ field _ _ => foreign field

def members (c : Drafter) : List Node → List Member
  | [] => []
  | n :: ns => ⟨n, c.node n⟩ :: c.members ns

end

def draft (c : Drafter) (nodes : List Node) (data : Value) (type : SchemaType) :
    Outcome Document :=
  (level (c.members nodes) data type).map Document.ofChildren

end Drafter

end Covenant
