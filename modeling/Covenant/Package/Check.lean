import Covenant.Package.Metadata
import Covenant.Package.Script

/-!
Checking the files of a package.

A package has a description in `package.json`, at least one sample, only samples with
language tags, and scripts only in the language that it declares. It should have a
sample request.
-/

namespace Covenant

namespace Fault.Finding

def rule : Finding → String
  | .noPackage => "package"
  | .noSamples | .locale _ => "samples"
  | .undeclaredLogic _ | .otherLogic .. => "logic"
  | .noRequest => "request"

def file? : Finding → Option String
  | .noPackage | .noSamples => none
  | .locale file | .undeclaredLogic file | .otherLogic file .. => some file
  | .noRequest => some "request.json"

end Fault.Finding

namespace Package

open Fault (Finding)

def packageFile : String := "package.json"

/-- The file that explains a package to its readers. -/
def readmeFile : String := "README.md"

def requestFile : String := "request.json"

def responseFile : String := "response.json"

/-- Whether a path leads into a top directory. -/
def isUnder (directory path : String) : Bool :=
  (Text.dropStart? (directory ++ "/").toList path.toList).isSome

/-- Whether a file is a model. -/
def isModel (path : String) : Bool :=
  isUnder "model" path && Text.endsWith ".json".toList path.toList

def paths (files : Files) : List String :=
  files.sorted.names

def checkSamples (files : Files) : List Finding :=
  match (paths files).filter fun p => (sampleLocale? p).isSome with
  | [] => [.noSamples]
  | samples =>
    samples.filterMap fun p =>
      if ((sampleLocale? p).map isLocale).getD true then none else some (.locale p)

/-- What is wrong with a script of a language where `runtime` is declared. -/
def checkScript (runtime : Option String) (path : String) (language : Language) :
    Option Finding :=
  match runtime with
  | none => some (.undeclaredLogic path)
  | some r => if language.name = r then none else some (.otherLogic path r language.name)

def checkLogic (files : Files) (runtime : Option String) : List Finding :=
  ((paths files).filter (isUnder "logic")).filterMap fun p =>
    (Language.ofPath? p).bind (checkScript runtime p)

def errors (files : Files) (runtime : Option String) : List Finding :=
  (if files.has packageFile then [] else [.noPackage]) ++ checkSamples files
    ++ checkLogic files runtime

def warnings (files : Files) : List Finding :=
  if files.has requestFile then [] else [.noRequest]

end Package

end Covenant
