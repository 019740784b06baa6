import Covenant.Package.Metadata
import Covenant.Template.Registry
import Covenant.Schema.Validation

/-!
Templates.

A template is a package put to use: its metadata, models, template markup and scripts,
the types of its models, and the grammar in force. The grammar is built from the markup
when it is first needed. The digest of the contents is kept until they change.
-/

namespace Covenant

/-- What templates depend on besides their packages: the settings, and the supply of
identifiers. -/
structure Environment where
  settings : Settings := {}
  identifier : Nat → String

/-- A template. -/
structure Template where
  environment : Environment
  metadata : Package.Metadata
  models : List (String × Value) := []
  markup : Option String := none
  scripts : Option (List Package.Script) := some []
  catalog : Catalog := .system
  registry : Registry := {}
  digest : Option String := none

namespace Template

/-! ### Parts -/

def settings (t : Template) : Settings :=
  t.environment.settings

def identifier (t : Template) : String :=
  t.metadata.identifier

/-- The language of the scripts, if there are any. -/
def runtime (t : Template) : Option Package.Language :=
  t.metadata.info.profile.runtime

def type (t : Template) : Outcome SchemaType :=
  t.catalog.templateType t.metadata.info.profile.kind

def compiler (t : Template) : Markup.Compiler :=
  { catalog := t.catalog, settings := t.settings, file := t.settings.grammarFile
    identifier := t.environment.identifier }

def scope (t : Template) (file : Option String := none) : Journal.Scope :=
  .of (some t.identifier) file

/-- Checks that data is an instance of the type that the template models. -/
def checkData (t : Template) (data : Value) : Outcome Unit := do
  let type ← t.type
  t.catalog.checkData data (some type.fqn)

/-! ### Identity -/

def contentDigest (t : Template) : String :=
  Package.digest (Package.contents (t.models.map Prod.snd) t.markup t.scripts t.metadata)

/-- The digest of the contents, which is made when it is first asked for. -/
def hash : Work Template String := do
  let t ← Work.state
  match t.digest with
  | some d => return d
  | none =>
    Work.put { t with digest := some t.contentDigest }
    return t.contentDigest

/-! ### Changes -/

def withMetadata (t : Template) (m : Package.Metadata) : Template :=
  { t with metadata := m, digest := none }

def withReadme (t : Template) (readme : Option String) : Template :=
  t.withMetadata { t.metadata with readme }

def withRequest (t : Template) (request : Option Value) : Template :=
  t.withMetadata { t.metadata with request }

/-- A template with other keywords: the members of a value. -/
def withKeywords (t : Template) (keywords : Value) : Outcome Template := do
  let keywords ← Outcome.ofOption keywords.members?
  return t.withMetadata { t.metadata with info := { t.metadata.info with keywords } }

def withSamples (t : Template) (samples : Value) : Outcome Template :=
  (t.metadata.withSamples samples).map t.withMetadata

def withSample (t : Template) (locale : String) (text : Value) : Outcome Template :=
  (t.metadata.withSample locale text).map t.withMetadata

/-- A template with other markup; nothing changes if it is the same. -/
def withMarkup (t : Template) (markup : String) : Template :=
  if t.markup = some markup then t else { t with markup := some markup, digest := none }

def change (f : Template → Outcome Template) : Work Template Unit := do
  Work.put (← Work.ofOutcome (f (← Work.state)))

/-! ### The grammar -/

/-- Work on the registry of a template, which has to model a type. -/
def onRegistry {α : Type} (w : SchemaType → Work Registry α) : Work Template α := do
  let type ← Work.ofOutcome (← Work.state).type
  Work.zoom registry (fun r t => { t with registry := r }) (w type)

/-- Builds the grammar from markup, by default that of the template. -/
def build (text : Option String := none) : Work Template Unit := do
  let t ← Work.state
  match text.or t.markup with
  | none => throw { cause := .state (.noMarkup t.settings.grammarFile) }
  | some markup =>
    Work.within (t.scope (some t.settings.grammarFile))
      (onRegistry fun type => Registry.build t.compiler type markup)
    Work.change fun t => t.withMarkup markup

def setGrammar (source : String) : Work Template Unit := do
  let t ← Work.state
  Work.within t.scope (onRegistry fun _ => Registry.set t.settings.grammarFile source)

def ensureGrammar : Work Template Unit := do
  let t ← Work.state
  unless t.registry.isBuilt do
    if t.markup.isNone then throw { cause := .state .noGrammar }
    build

/-- Reads a text by the grammar, which is built if none is in force. -/
def read (text : String) (ctx : ReadingContext := {}) (file : Option String := none) :
    Work Template Value := do
  ensureGrammar
  onRegistry fun _ => Registry.read text ctx file

/-- The nodes of the markup that a grammar was last built from. It is built if none was. -/
def nodes : Work Template (List Markup.Node) := do
  ensureGrammar
  match (← Work.state).registry.blueprint with
  | some b => return b.nodes
  | none =>
    if (← Work.state).markup.isNone then throw { cause := .state .noDraft }
    build
    match (← Work.state).registry.blueprint with
    | some b => return b.nodes
    | none => return []

end Template

end Covenant
