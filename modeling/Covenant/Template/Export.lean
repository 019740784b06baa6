import Covenant.Template.Loading

/-!
Writing templates as packages.

The files of a package hold everything about a template; the scripts may be left out. An
archive is made for one language of scripts and refused to templates whose scripts are in
another.
-/

namespace Covenant

namespace Template

open Package

def writeJson (v : Value) : String :=
  Json.indented v ++ "\n"

/-- The description of the package as it is written. -/
def writtenInfo (t : Template) (includeLogic : Bool) (runtime : Option Language) : Info :=
  { t.metadata.info with
    profile := { t.metadata.info.profile with
      runtime := runtime.or t.runtime
      logicOmitted := !includeLogic || t.scripts.isNone } }

def files (t : Template) (includeLogic : Bool := true) (runtime : Option Language := none) :
    Files :=
  let json (file : String) (v : Option Value) : List (String × String) :=
    (v.map fun v => (file, writeJson v)).toList
  Table.ofList (
    json packageFile (some (t.writtenInfo includeLogic runtime).toValue)
      ++ (t.metadata.readme.map fun s => (readmeFile, s)).toList
      ++ (t.metadata.samples.map fun e => (sampleFile e.1, e.2))
      ++ json requestFile t.metadata.request
      ++ json responseFile t.metadata.response
      ++ (t.models.map fun e => (e.1, writeJson e.2))
      ++ (t.markup.map fun s => (t.settings.grammarFile, s)).toList
      ++ if includeLogic then (t.scripts.getD []).map fun s => (s.identifier, s.contents)
         else [])

def exportLanguage (name : Option String) : Outcome Language :=
  match name with
  | none => .fail (.argument .noLanguage)
  | some name =>
    match Language.names.lookup name with
    | some language => .ok language
    | none => .fail (.argument (.unknownLanguage name))

/-- Whether there are scripts to be written. -/
def writesLogic (t : Template) (includeLogic : Bool) : Bool :=
  includeLogic && !(t.scripts.getD []).isEmpty

/-- Refuses a language that an archive of the template cannot be made for. -/
def checkLanguage (t : Template) (language : Language) (includeLogic : Bool) : Outcome Unit :=
  if t.runtime = some .javascript ∧ language = .ergo then .fail (.argument .javascriptToErgo)
  else if t.writesLogic includeLogic ∧ t.runtime ≠ some language then
    .fail (.argument (.otherLanguage ((t.runtime.map Language.name).getD "untyped")
      language.name))
  else .ok ()

/-- The entries of an archive of the template for a language of scripts. The language is
declared only if the template has one or there are scripts to be written. -/
def archive (name : Option String) (includeLogic : Bool := true) :
    Work Template (List (String × ByteArray)) := do
  let t ← Work.state
  let language ← Work.ofOutcome (exportLanguage name)
  Work.ofOutcome (t.checkLanguage language includeLogic)
  Work.within t.scope (Work.note .info "templates"
    ("Exporting archive for " ++ language.name ++ ", logic "
      ++ if includeLogic then "included" else "omitted"))
  let declared := t.runtime.isSome || t.writesLogic includeLogic
  return Archive.write (t.files includeLogic (if declared then some language else none))

end Template

end Covenant
