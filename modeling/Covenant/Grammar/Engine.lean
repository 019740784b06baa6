import Covenant.Grammar.Listing
import Covenant.Grammar.Reading

/-!
Reading texts by a parser of the listing.

A parser is made from a listing and the name that it starts with. It answers a text by
the place where it could not go on, or by all that the text can be read as: a tree
under the names of the listing that holds, wherever there are several readings, each
of them. An engine is a rule set with such a parser and the tables of its listing. It
reads a text that has no ambiguous place.
-/

namespace Covenant

/-- A tree under the names of a listing, with all readings of the places that have
several. -/
inductive Forest where
  | token (text : String)
  | node (name : String) (children : List Forest)
  | ambiguous (readings : List Forest)
deriving Inhabited

namespace Forest

mutual

/-- The tree that a forest is, if no place in it has several readings. -/
def tree? : Forest → Option Labelled
  | .token text => some (.token text)
  | .node name children => (trees? children).map (.node name)
  | .ambiguous _ => none

def trees? : List Forest → Option (List Labelled)
  | [] => some []
  | f :: fs => do
    let t ← f.tree?
    let ts ← trees? fs
    return t :: ts

end

end Forest

/-- What a parser answers: a forest, or the position where it could not go on and the
names of the terminals that it could have gone on with. -/
inductive Answer where
  | refusal (furthest : Nat) (expected : List String)
  | forest (f : Forest)
deriving Inhabited

/-- Makes parsers from the text of a listing and the name of its start rule. A listing may
be refused. -/
abbrev Generator :=
  String → String → Option (String → Answer)

/-- A rule set with the tables and a parser of its listing. -/
structure Engine where
  rules : RuleSet
  tables : Listing.Tables
  parser : String → Answer

namespace Engine

def compile (generate : Generator) (rules : RuleSet) : Outcome Engine := do
  let tables ← Listing.tables rules
  match generate (Listing.text rules) (Listing.mangle (rules.start.getD "")) with
  | some parser => return ⟨rules, tables, parser⟩
  | none => .fail (.grammar .notCompilable)

def describe (rules : RuleSet) (name : String) : String :=
  let n := Listing.namesOf rules
  ((n.terminals.find? fun x => n.terminal x == name).map Symbol.body).getD name

def parse (e : Engine) (text : String) (file : Option String := none) : Outcome Labelled :=
  match e.parser text with
  | .refusal furthest expected =>
    .error ((Grammar.unreadable text.toList furthest (expected.map (describe e.rules))).inFile file)
  | .forest f =>
    match f.tree? with
    | some t => .ok t
    | none => .error { cause := .ambiguous, file }

def read (e : Engine) (text : String) (ctx : ReadingContext := {})
    (file : Option String := none) : Outcome Value := do
  let t ← e.parse text file
  t.evaluate e.tables ctx

end Engine

end Covenant
