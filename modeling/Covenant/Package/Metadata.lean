import Covenant.Digest
import Covenant.Package.Script
import Covenant.Schema.ModelFile
import Covenant.Value.Shape

/-!
Metadata of packages.

The file `package.json` names a package and says what its template describes. With the
readme, the samples and the sample request and response it makes up everything about a
template but its models, its markup and its scripts.
-/

namespace Covenant.Package

/-! ### Sample files

A package has a sample text in its default language, `sample.txt`, and may have samples
in others, with the language tag in the name of the file: `sample_fr.txt`. -/

/-- The locale of the sample in the default language. -/
def defaultLocale : String := "default"

/-- Whether a piece consists of characters of a class and has one of the lengths from
`least` to `most`. -/
def isPiece (p : Char → Bool) (least most : Nat) (cs : List Char) : Bool :=
  decide (least ≤ cs.length ∧ cs.length ≤ most) && cs.all p

/-- Leaves out the first piece if it is of a kind that may be missing. -/
def dropPiece (p : List Char → Bool) : List (List Char) → List (List Char)
  | [] => []
  | piece :: pieces => if p piece then pieces else piece :: pieces

/-- Whether a piece names a region: two letters or three digits. -/
def isRegion (piece : List Char) : Bool :=
  isPiece Char.isAlpha 2 2 piece || isPiece Char.isDigit 3 3 piece

/-- Whether a text is a language tag: a language, and perhaps a script, a region and
variants, with hyphens between them. A line feed at its end is left out. -/
def isLanguageTag (locale : String) : Bool :=
  match Text.splitAt '-' (Text.withoutLineFeed locale.toList) with
  | [] => false
  | language :: pieces =>
    isPiece Char.isAlpha 2 3 language
      && (dropPiece isRegion (dropPiece (isPiece Char.isAlpha 4 4) pieces)).all
        (isPiece Char.isAlphanum 5 8)

/-- Whether a sample may have this locale. -/
def isLocale (locale : String) : Bool :=
  locale == defaultLocale || isLanguageTag locale

/-- The locale of a sample file, if the file is one. A line feed at the end of the path is
left out. -/
def sampleLocale? (path : String) : Option String := do
  let rest ← Text.dropStart? "sample".toList (Text.withoutLineFeed path.toList)
  match ← Text.dropEnd? ".txt".toList rest with
  | [] => some defaultLocale
  | '_' :: locale =>
    if locale.isEmpty || locale.contains '/' then none else some (String.ofList locale)
  | _ => none

def sampleFile (locale : String) : String :=
  if locale = defaultLocale then "sample.txt" else "sample_" ++ locale ++ ".txt"

/-! ### Metadata -/

/-- What a template describes, the language of its scripts, and whether the scripts were
left out when the package was written. -/
structure Profile where
  kind : TemplateKind := .contract
  runtime : Option Language := none
  logicOmitted : Bool := false
deriving DecidableEq, Repr, Inhabited

/-- The description of a package. -/
structure Info where
  name : String
  version : String
  description : String := ""
  keywords : List Value := []
  profile : Profile := {}
deriving Inhabited

/-- Everything about a template but its models, its markup and its scripts. -/
structure Metadata where
  info : Info
  readme : Option String := none
  samples : Table String := []
  request : Option Value := none
  response : Option Value := none
deriving Inhabited

/-! ### As values -/

def Profile.toValue (p : Profile) : Value :=
  .object [("template", .text p.kind.name), ("runtime", .ofText? (p.runtime.map Language.name)),
    ("logic_omitted", .bool p.logicOmitted)]

def Info.toValue (i : Info) : Value :=
  .object [("name", .text i.name), ("version", .text i.version),
    ("description", .text i.description), ("keywords", .list i.keywords),
    ("clausegram", i.profile.toValue)]

def samplesValue (samples : Table String) : Value :=
  .object (samples.map fun e => (e.1, .text e.2))

/-! ### Reading -/

open Shape

def Profile.read (v : Value) : Checked Profile :=
  (record "PackageSettings" v).bind fun fs =>
    Checked.join (Checked.join (Checked.join (.ok Profile.mk)
      (fieldOr fs "template" .contract (oneOf TemplateKind.names)))
      (fieldOr fs "runtime" none (orNull (oneOf Language.names))))
      (fieldOr fs "logic_omitted" false truth)

def nonblank (v : Value) : Checked String :=
  Checked.refuse (fun s => if (Text.strip s).isEmpty then some "must not be empty" else none)
    (text v)

def Info.read (v : Value) : Checked Info :=
  (record "PackageInfo" v).bind fun fs =>
    Checked.join (Checked.join (Checked.join (Checked.join (Checked.join (.ok Info.mk)
      (field fs "name" nonblank))
      (field fs "version" nonblank))
      (fieldOr fs "description" "" text))
      (fieldOr fs "keywords" [] fun v => (items text v).map (List.map Value.text)))
      (fieldOr fs "clausegram" {} Profile.read)

/-- Why samples are refused: there has to be one in the default language, and each locale
has to be a language tag. -/
def refuseSamples (samples : Table String) : Option String :=
  if !samples.has defaultLocale then some "sample.txt is required"
  else (samples.names.find? fun locale => !isLocale locale).map fun locale =>
    "Invalid locale " ++ locale ++ ". Locales should be IETF language tags"

def readSamples (v : Value) : Checked (Table String) :=
  Checked.refuse refuseSamples (entries text v)

def Metadata.read (v : Value) : Checked Metadata :=
  (record "TemplateMetadata" v).bind fun fs =>
    Checked.join (Checked.join (Checked.join (Checked.join (Checked.join (.ok Metadata.mk)
      (field fs "package" Info.read))
      (fieldOr fs "readme" none (orNull text)))
      (field fs "samples" readSamples))
      (fieldOr fs "request" none (orNull dictionary)))
      (fieldOr fs "response" none (orNull dictionary))

/-- The fault of what does not fit, told by the first misfit. -/
def misfitFault (file : Option String) (found : List Misfit) : Fault :=
  { cause := match found with
      | m :: _ => .package (.misfit m)
      | [] => .undefined
    file }

/-- What was read, or the fault of what does not fit. -/
def ofChecked {α : Type} (file : Option String) (c : Checked α) : Outcome α :=
  c.mapError (misfitFault file)

namespace Metadata

def partsValue (package readme samples request response : Value) : Value :=
  .object [("package", package), ("readme", readme), ("samples", samples),
    ("request", request), ("response", response)]

def identifier (m : Metadata) : String :=
  m.info.name ++ "@" ++ m.info.version

/-- Metadata with other samples. All parts have to fit. -/
def withSamples (m : Metadata) (samples : Value) : Outcome Metadata :=
  if samples.isNull then .fail (.package .sampleRequired)
  else ofChecked none (read (partsValue m.info.toValue (.ofText? m.readme) samples
    (.ofOption m.request) (.ofOption m.response)))

def withSample (m : Metadata) (locale : String) (text : Value) : Outcome Metadata :=
  m.withSamples (.object (Table.put (m.samples.map fun e => (e.1, Value.text e.2)) locale text))

end Metadata

/-! ### Contents

Two templates are the same iff their contents are: the models, the template markup, the
scripts, or that they were left out, and the metadata. The contents are digested in
canonical form, in which neither the order of models and scripts nor that of keys shows. -/

def Metadata.contents (m : Metadata) : Value :=
  .object [("name", .text m.info.name), ("version", .text m.info.version),
    ("description", .text m.info.description), ("keywords", .list m.info.keywords),
    ("template", .text m.info.profile.kind.name),
    ("runtime", .ofText? (m.info.profile.runtime.map Language.name)),
    ("readme", .ofText? m.readme), ("samples", samplesValue m.samples),
    ("request", .ofOption m.request), ("response", .ofOption m.response)]

def sortModels (models : List Value) : List Value :=
  models.mergeSort fun v w => Json.canonical v ≤ Json.canonical w

def sortScripts (scripts : List Script) : List Script :=
  scripts.mergeSort fun s t => s.identifier ≤ t.identifier

def contents (models : List Value) (markup : Option String) (scripts : Option (List Script))
    (m : Metadata) : Value :=
  .object [("models", .list (sortModels models)), ("grammar", .ofText? markup),
    ("logic", .ofOption (scripts.map fun ss => .list ((sortScripts ss).map Script.toValue))),
    ("logicOmitted", .bool scripts.isNone), ("metadata", m.contents)]

def digest (contents : Value) : String :=
  Digest.ofString (Json.canonical contents)

end Covenant.Package
