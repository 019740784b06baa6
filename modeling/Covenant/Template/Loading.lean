import Covenant.Package.Archive
import Covenant.Package.Check
import Covenant.Template.Basic

/-!
Loading templates.

A template is put together from its parts, or loaded from the files of its package. The
files may come from a directory or from an archive; what is loaded depends on their paths
and texts alone.
-/

namespace Covenant

namespace Template

open Package

/-! ### From parts -/

/-- The parts of a template before they are checked. -/
structure Parts where
  package : Value
  readme : Value := .null
  samples : Value := .object []
  request : Value := .null
  response : Value := .null
  models : List (String × Value) := []
  markup : Option String := none
  scripts : Option (List Script) := none

def addModels {σ : Type} (c : Catalog) : List (String × Value) → Work σ Catalog
  | [] => pure c
  | (file, v) :: models => do
    let (o, c) := c.add v (some file)
    let m ← Work.ofOutcome o
    Work.note .debug "schemas" ("Added model file for namespace " ++ m.ns)
    addModels c models

/-- Puts a template together. Without scripts it has none, unless they were left out when
its package was written. -/
def ofParts {σ : Type} (env : Environment) (p : Parts) : Work σ Template := do
  let metadata ← Work.ofOutcome (ofChecked (some packageFile)
    (Metadata.read (Metadata.partsValue p.package p.readme p.samples p.request p.response)))
  let catalog ← addModels .system p.models
  return { environment := env, metadata, models := p.models, markup := p.markup
           scripts := if metadata.info.profile.logicOmitted then p.scripts
                      else some (p.scripts.getD [])
           catalog }

/-! ### From files -/

def readJson (file text : String) : Outcome Value :=
  match Json.read text with
  | .ok v => .ok v
  | .error f =>
    .error { cause := if f.issue = .longNumeral then .undefined else .package (.notJson f.issue)
             file := some file }

/-- The value of a JSON file, if there is one. -/
def readJson? (files : Files) (file : String) : Outcome (Option Value) :=
  match files.find? file with
  | some text => (readJson file text).map some
  | none => .ok none

/-- The samples among files by locale, in the order of their paths. -/
def samplesOf (files : Files) : Table String :=
  Table.ofList (files.sorted.filterMap fun e => (sampleLocale? e.1).map fun l => (l, e.2))

/-- The models among files, in the order of their paths. -/
def modelsOf (files : Files) : Outcome (List (String × Value)) :=
  (files.sorted.filter fun e => isModel e.1).mapM fun e =>
    (readJson e.1 e.2).map fun v => (e.1, v)

/-- The description of a package, if it has one. -/
def infoOf (files : Files) : Outcome (Option Info) := do
  match ← readJson? files packageFile with
  | none => return none
  | some v => return some (← ofChecked (some packageFile) (Info.read v))

def findingFault (f : Fault.Finding) : Fault :=
  { cause := .package (.check f), file := f.file? }

/-- The parts of the template of a checked package. -/
def partsOf (env : Environment) (files : Files) (info : Info) : Outcome Parts := do
  let models ← modelsOf files
  let scripts ← if info.profile.logicOmitted then pure none
    else (scriptsOf (files.filter fun e => isUnder "logic" e.1)).map some
  let request ← readJson? files requestFile
  let response ← readJson? files responseFile
  return { package := info.toValue, readme := .ofText? (files.find? readmeFile)
           samples := samplesValue (samplesOf files), request := .ofOption request
           response := .ofOption response, models
           markup := files.find? env.settings.grammarFile, scripts }

/-- Loads a template from the files of its package. -/
def ofFiles {σ : Type} (env : Environment) (files : Files) : Work σ Template := do
  let info? ← Work.ofOutcome (infoOf files)
  let runtime := info?.bind fun i => i.profile.runtime.map Language.name
  for w in warnings files do
    Work.note .warning "templates" w.message
  match Package.errors files runtime, info? with
  | f :: _, _ => throw (findingFault f)
  | [], none => throw (findingFault .noPackage)
  | [], some info =>
    let parts ← Work.ofOutcome (partsOf env files info)
    ofParts env parts

/-! ### From directories and archives -/

def countFiles (files : Files) : String :=
  toString files.length ++ " files"

/-- Whether files of a directory are left out: hidden ones, and installed packages. -/
def isIgnored (path : String) : Bool :=
  path.toList.head? = some '.' || isUnder "node_modules" path

def pathLe (p q : String) : Bool :=
  Text.pathLe ((steps p).map String.ofList) ((steps q).map String.ofList)

/-- The text of a file in a directory. Lines may end in any way. -/
def readFile (file : String × ByteArray) : Outcome (String × String) :=
  match String.fromUTF8? file.2 with
  | some s => .ok (file.1, String.ofList (Text.universalNewlines s.toList))
  | none => .error { cause := .package .notText, file := some file.1 }

/-- Loads a template from the files of a directory. -/
def ofDirectory {σ : Type} (env : Environment) (root : String)
    (files : List (String × ByteArray)) : Work σ Template := do
  let kept := (files.filter fun e => !isIgnored e.1).mergeSort fun d e => pathLe d.1 e.1
  let texts ← Work.ofOutcome (kept.mapM readFile)
  Work.note .debug "templates"
    ("Loading template from directory " ++ root ++ ": " ++ countFiles texts)
  ofFiles env texts

/-- Loads a template from the entries of an archive. -/
def ofArchive {σ : Type} (env : Environment) (entries : List (String × ByteArray)) :
    Work σ Template := do
  let files ← Work.ofOutcome (Archive.files entries)
  Work.note .debug "templates" ("Loading template from archive: " ++ countFiles files)
  ofFiles env files

end Template

end Covenant
