import Covenant.Fault

/-!
Scripts.

A script is a file of a template's logic. Its language is told by the ending of its
name. Scripts are carried along and never run.
-/

namespace Covenant.Package

/-- The languages of scripts. -/
inductive Language where
  | ergo
  | javascript
deriving DecidableEq, Repr, Inhabited

namespace Language

def names : List (String × Language) :=
  [("ergo", .ergo), ("javascript", .javascript)]

def name : Language → String
  | .ergo => "ergo"
  | .javascript => "javascript"

def endings : List (String × Language) :=
  [(".ergo", .ergo), (".js", .javascript)]

end Language

/-! ### Paths -/

/-- The steps of a path. Empty steps and single points lead nowhere. -/
def steps (path : String) : List (List Char) :=
  (Text.splitAt '/' path.toList).filter fun step => step != [] && step != ['.']

/-- The ending of a file name: its last point and what follows, if neither what is before
nor what follows is empty. -/
def ending (name : List Char) : List Char :=
  let back := name.reverse
  let tail := back.takeWhile fun c => c != '.'
  match back.dropWhile fun c => c != '.' with
  | [] | [_] => []
  | _ => if tail.isEmpty then [] else '.' :: tail.reverse

/-- The language of a file, if it is a script. -/
def Language.ofPath? (path : String) : Option Language :=
  endings.lookup (Text.lower (String.ofList (ending ((steps path).getLast?.getD []))))

/-! ### Scripts -/

/-- A script: its path in the package, its language and its text. -/
structure Script where
  identifier : String
  language : Language
  contents : String
deriving DecidableEq, Repr

namespace Script

/-- A script, which must not be empty. -/
def make (identifier : String) (language : Language) (contents : String) : Outcome Script :=
  if contents.isEmpty then .error { cause := .package .emptyScript, file := some identifier }
  else .ok ⟨identifier, language, contents⟩

def toValue (s : Script) : Value :=
  .object [("identifier", .text s.identifier), ("language", .text s.language.name),
    ("contents", .text s.contents)]

end Script

abbrev Files := Table String

def Files.sorted (files : Files) : Files :=
  files.mergeSort fun a b => a.1 ≤ b.1

/-- The script that a file holds, if it is one. -/
def scriptOf? (file : String × String) : Option (Outcome Script) :=
  (Language.ofPath? file.1).map fun language => Script.make file.1 language file.2

/-- The scripts among files, in the order of their paths. -/
def scriptsOf (files : Files) : Outcome (List Script) :=
  (files.sorted.filterMap scriptOf?).mapM id

end Covenant.Package
