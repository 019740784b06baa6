import Covenant.Table

/-!
Settings shared by reading, compiling and drafting.
-/

namespace Covenant

/-- The settings and their defaults. -/
structure Settings where
  dateFormat : String := "MM/DD/YYYY"
  bullet : String := "- "
  marker : String := "1. "
  joinSeparator : String := ", "
  grammarFile : String := "text/grammar.tem.md"
  timezone : String := "UTC"
  logLevel : String := "INFO"
deriving DecidableEq, Repr, Inhabited

namespace Settings

/-- The settings by name, in order of declaration. -/
def toTable (s : Settings) : Table String :=
  [("default_datetime_format", s.dateFormat), ("ulist_bullet", s.bullet),
    ("olist_marker", s.marker), ("join_separator", s.joinSeparator),
    ("grammar_file", s.grammarFile), ("default_timezone", s.timezone),
    ("log_level", s.logLevel)]

/-- Changes one setting by name, if there is one of that name. -/
def set? (s : Settings) (name value : String) : Option Settings :=
  match name with
  | "default_datetime_format" => some { s with dateFormat := value }
  | "ulist_bullet" => some { s with bullet := value }
  | "olist_marker" => some { s with marker := value }
  | "join_separator" => some { s with joinSeparator := value }
  | "grammar_file" => some { s with grammarFile := value }
  | "default_timezone" => some { s with timezone := value }
  | "log_level" => some { s with logLevel := value }
  | _ => none

def environmentName (name : String) : String :=
  "CLAUSEGRAM_" ++ name.map Char.toUpper

/-- The defaults, replaced by the environment variables that are set. -/
def ofEnvironment (env : Table String) : Settings :=
  ({} : Settings).toTable.names.foldl (fun s name =>
    match env.find? (environmentName name) with
    | some v => (s.set? name v).getD s
    | none => s) {}

/-- Changes several settings; none is changed if a name is unknown. -/
def setAll? (s : Settings) (changes : Table String) : Option Settings :=
  changes.foldlM (fun s e => s.set? e.1 e.2) s

end Settings

end Covenant
