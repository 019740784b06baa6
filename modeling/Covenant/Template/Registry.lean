import Covenant.Document.Basic
import Covenant.Grammar.Reading
import Covenant.Grammar.Source.Reader
import Covenant.Journal.Entry
import Covenant.Markup.Reader
import Covenant.Markup.Rules

/-!
The grammar in force.

A registry holds the grammar by which the texts of a template are read. The grammar is
set from grammar source, or built from template markup; a set or build that fails leaves
everything as it was. Drafting needs the markup that a grammar was last built from.
-/

namespace Covenant

/-- Template markup in normal form, with the nodes that it was read as. -/
structure Blueprint where
  markup : String
  nodes : List Markup.Node
deriving Inhabited

/-- The grammar in force, and the markup that a grammar was last built from. -/
structure Registry where
  grammar : Option Grammar := none
  blueprint : Option Blueprint := none
deriving Inhabited

namespace Registry

/-- Whether a grammar is in force. -/
def isBuilt (r : Registry) : Bool :=
  r.grammar.isSome

def current (r : Registry) : Outcome Grammar :=
  match r.grammar with
  | some g => .ok g
  | none => .fail (.state .noGrammar)

def source? (r : Registry) : Option String :=
  r.grammar.bind Grammar.source

/-- Whether the grammar in force reads expressions. -/
def expressions (r : Registry) : Bool :=
  match r.grammar with
  | some g => g.rules.expressions
  | none => false

def readSource (file source : String) : Outcome Grammar := do
  let rules ← RuleSet.read source (some file)
  Grammar.ofRules rules (some source)

def countRules (s : RuleSet) : String :=
  toString s.rules.length ++ " rules"

def set (file source : String) : Work Registry Unit := do
  let g ← Work.noteFault "registry" "Grammar compilation failed: "
    (Work.ofOutcome (readSource file source))
  Work.change fun r => { r with grammar := some g }
  Work.note .debug "registry" ("Grammar set: " ++ countRules g.rules)

def compile {σ : Type} (c : Markup.Compiler) (nodes : List Markup.Node) (type : SchemaType) :
    Work σ RuleSet := do
  let own ← Work.issuing (c.nodeRules nodes type)
  let types ← Work.ofOutcome (c.catalog.rules c.settings type.fqn)
  Work.note .debug "grammar" ("Visited model " ++ type.fqn ++ ": " ++ countRules types)
  let rules ← Work.ofOutcome (c.withTypes own types)
  Work.note .debug "compiler" ("Compiled template for " ++ type.fqn ++ ": " ++ countRules rules)
  return rules

/-- The nodes of template markup in normal form, and the source of its rules. -/
def generate {σ : Type} (c : Markup.Compiler) (type : SchemaType) (markup : String) :
    Work σ (List Markup.Node × String) := do
  let nodes ← Work.ofOutcome
    (Markup.read markup (some c.settings.grammarFile) c.settings.joinSeparator)
  let rules ← compile c nodes type
  let source ← Work.ofOutcome rules.write
  return (nodes, source)

/-- Builds a grammar from template markup and puts it into force. -/
def build (c : Markup.Compiler) (type : SchemaType) (text : String) : Work Registry Unit := do
  let markup := (Document.read text).write
  Work.note .debug "registry" ("Building grammar from template markup:\n" ++ markup)
  let (nodes, source) ← Work.noteFault "registry" "Grammar build failed: "
    (generate c type markup)
  Work.note .debug "registry" ("Generated grammar:\n" ++ source)
  set c.settings.grammarFile source
  Work.change fun r => { r with blueprint := some ⟨markup, nodes⟩ }

def read (text : String) (ctx : ReadingContext := {}) (file : Option String := none) :
    Work Registry Value := do
  let g ← Work.ofOutcome (← Work.state).current
  let v ← Work.ofOutcome (g.read text ctx file)
  Work.note .debug "grammar" ("Parsed " ++ toString text.length
    ++ " characters with start rule " ++ g.rules.start.getD "")
  return v

/-- Reads the data of a type from a document by the grammar in force. -/
def extract (type : SchemaType) (d : Document) (ctx : ReadingContext := {})
    (file : Option String := none) : Work Registry Value := do
  let text := d.write
  let v ← read text ctx file
  Work.note .debug "markup"
    ("Extracted " ++ type.fqn ++ " from " ++ toString text.length ++ " characters")
  return v

end Registry

end Covenant
