import Covenant.Fault
import Covenant.Table

/-!
Grammar rules.

A rule has a name, one or more alternatives, and at most one semantic action. An
alternative is a sequence of symbols, each a reference to a rule, a literal text or
a pattern, with a cardinality. Actions are data: the name of an action and its
parameters, whose values are constants or taken from the matched alternative.
-/

namespace Covenant

/-- How often a symbol occurs. -/
inductive Cardinality where
  | one
  | optional
  | many
deriving DecidableEq, Repr, Hashable, Inhabited

namespace Cardinality

def mark : Cardinality → String
  | .one => ""
  | .optional => "?"
  | .many => "*"

def ofMark? : String → Option Cardinality
  | "" => some .one
  | "?" => some .optional
  | "*" => some .many
  | _ => none

end Cardinality

/-- What a symbol matches. -/
inductive SymbolKind where
  | rule
  | literal
  | pattern
deriving DecidableEq, Repr, Hashable, Inhabited

/-- One element of an alternative. -/
structure Symbol where
  kind : SymbolKind
  value : String
  cardinality : Cardinality := .one
deriving DecidableEq, Repr, Hashable, Inhabited

namespace Symbol

def rule (name : String) (cardinality : Cardinality := .one) : Symbol :=
  ⟨.rule, name, cardinality⟩

def literal (text : String) (cardinality : Cardinality := .one) : Symbol :=
  ⟨.literal, text, cardinality⟩

def pattern (regex : String) (cardinality : Cardinality := .one) : Symbol :=
  ⟨.pattern, regex, cardinality⟩

/-- Whether a symbol refers to the rule `name`. -/
def refersTo (s : Symbol) (name : String) : Bool :=
  s.kind == .rule && s.value == name

def single (s : Symbol) : Symbol :=
  { s with cardinality := .one }

end Symbol

/-- Where the value of an action's parameter comes from: a constant text, the first
symbol that refers to a rule, or the symbol at a position from zero. -/
inductive ParamSource where
  | const (text : String)
  | ref (rule : String)
  | index (position : Int)
deriving DecidableEq, Repr, Inhabited

/-- A parameter of an action. -/
structure ActionParam where
  key : String
  source : ParamSource
deriving DecidableEq, Repr, Inhabited

/-- A semantic action by name, with its parameters. -/
structure Action where
  name : String
  params : List ActionParam := []
deriving DecidableEq, Repr, Inhabited

def Action.param? (a : Action) (key : String) : Option ActionParam :=
  a.params.find? fun p => p.key == key

/-- The part of a combined grammar that a rule belongs to. -/
inductive RuleOrigin where
  | template
  | model
  | format
  | base
deriving DecidableEq, Repr, Inhabited

/-- A named rule. -/
structure Rule where
  name : String
  alternatives : List (List Symbol)
  action : Option Action := none
  comment : Option String := none
  origin : RuleOrigin := .template
deriving DecidableEq, Repr, Inhabited

/-- The names of the rules that a rule refers to, in order. -/
def Rule.references (r : Rule) : List String :=
  r.alternatives.flatten.filterMap fun s => if s.kind = .rule then some s.value else none

end Covenant
