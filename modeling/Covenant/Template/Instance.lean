import Covenant.Document.Draft
import Covenant.Document.Rendering
import Covenant.Template.Basic

/-!
Instances of templates.

An instance is a template with the data of one use of it. The data is read from a text or
set, and has to fit the type that the template models; it is drafted as a text, a tree,
HTML or an editor value.
-/

namespace Covenant

/-- A template with the data of one use of it. -/
structure Instance where
  template : Template
  data : Option Value := none

/-- How data is drafted: the format, and whether texts are written without quotes. -/
structure DraftOptions where
  format : String := "markdown"
  unquote : Bool := false
deriving DecidableEq, Repr, Inhabited

namespace DraftOptions

open Shape

def read (v : Value) : Checked DraftOptions :=
  (record "DraftOptions" v).bind fun fs =>
    Checked.join (Checked.join (.ok DraftOptions.mk)
      (fieldOr fs "format" "markdown" text))
      (fieldOr fs "unquote_variables" false truth)

/-- The options of a value; one that is not set stands for the defaults. -/
def ofValue (v : Value) : Outcome DraftOptions :=
  (read (if v.isSet then v else .object [])).mapError fun found =>
    { cause := match found with
        | m :: _ => .output (.options m.issue)
        | [] => .undefined }

def render (o : DraftOptions) (d : Document) : Outcome Value := do
  let r ← Rendering.ofName o.format
  r.render d o.unquote

end DraftOptions

namespace Instance

def onTemplate {α : Type} (w : Work Template α) : Work Instance α :=
  Work.zoom template (fun t i => { i with template := t }) w

/-- Whether a value names a type as its own. -/
def isOf (type : SchemaType) (v : Value) : Bool :=
  match v.get? classKey with
  | some (.text name) => name == type.fqn
  | _ => false

/-- Sets the data, which has to be an instance of the type that the template models. -/
def setData (data : Value) : Work Instance Unit := do
  let t := (← Work.state).template
  let type ← Work.ofOutcome t.type
  unless isOf type data do
    throw { cause := .validity (.notInstance type.fqn data) }
  Work.note .debug "templates" ("Setting data: " ++ Json.spaced data)
  Work.ofOutcome (t.checkData data)
  Work.change fun i => { i with data := some data }

def read (text : String) (clock : Option Int := none) (file : Option String := none)
    (zones : String → Option Zone := fun _ => none) : Work Instance Value := do
  let t := (← Work.state).template
  Work.within (t.scope file) do
    onTemplate Template.ensureGrammar
    let data ← onTemplate (Template.onRegistry fun type =>
      Registry.extract type (Document.read text) { clock, settings := t.settings, zones } file)
    setData data
    return data

def document (data : Value) : Work Instance Document := do
  let nodes ← onTemplate Template.nodes
  let t := (← Work.state).template
  let type ← Work.ofOutcome t.type
  let drafter : Drafter := { catalog := t.catalog, settings := t.settings }
  Work.ofOutcome (drafter.draft nodes data type)

def draft (options : Outcome DraftOptions := .ok {}) : Work Instance Value := do
  let i ← Work.state
  match i.data with
  | none => throw { cause := .state .noData }
  | some data =>
    let options ← Work.ofOutcome options
    Work.within i.template.scope do
      let d ← document data
      Work.ofOutcome (options.render d)

/-- The template's name and version, and the digest of the data once it is set. -/
def identifier (i : Instance) : String :=
  match i.data with
  | none => i.template.identifier
  | some data => i.template.identifier ++ "-" ++ Digest.ofString (Json.compact data)

def toValue (i : Instance) : Value :=
  .object [("template", .text i.template.identifier), ("data", .ofOption i.data)]

end Instance

end Covenant
