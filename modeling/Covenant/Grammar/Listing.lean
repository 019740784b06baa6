import Covenant.Grammar.Action
import Covenant.Grammar.Source.Writer

/-!
The listing of a rule set in extended Backus-Naur form.

Names in a listing are lower case, so rule names are written by a code (`mangle`);
optional and repeated symbols get helper rules, and literals and patterns get named
terminals, each numbered in order of first use. Every alternative has a label made of
its index and its rule.

A parser that is given a listing knows only its names: its trees have the labels of
alternatives and the names of helper rules at their nodes. `tables` notes what these
names stand for, with the parameters of each action bound to positions of each
alternative, and `Labelled.evaluate` works out the value of a tree from that alone.
-/

namespace Covenant

namespace Listing

/-- One character of a rule name in lower case: an underscore starts a code. -/
def mangleChar (c : Char) : List Char :=
  if c = '_' then ['_', '_']
  else if c.isUpper then ['_', c.toLower]
  else if c = '.' then ['_', '0']
  else if c = '$' then ['_', '1']
  else [c]

def mangle (name : String) : String :=
  String.ofList ('r' :: '_' :: name.toList.flatMap mangleChar)

/-- Characters with a meaning in regular expressions, and the slash. -/
def isSpecial (c : Char) : Bool :=
  "\\.^$*+?\x7b\x7d[]()|/".toList.contains c

/-- One character of a literal as a regular expression. -/
def escapeLiteral (c : Char) : List Char :=
  if isSpecial c then ['\\', c]
  else if c = '\n' then ['\\', 'n']
  else if c = '\r' then ['\\', 'r']
  else if c = '\t' then ['\\', 't']
  else if c = '"' ∨ c.toNat < 32 then '\\' :: 'x' :: Text.hexDigits 2 c.toNat
  else [c]

/-- A regular expression between slashes that matches exactly one text. -/
def literalRegex (text : String) : String :=
  String.ofList ('/' :: text.toList.flatMap escapeLiteral ++ ['/'])

/-- A pattern between slashes without bare double quotes. -/
def patternRegex (regex : String) : String :=
  String.ofList ('/' :: Slashed.body regex.toList ++ ['/'])

/-- The regular expression that a parser makes of one between slashes. -/
def inner? (regex : String) : Option (List Char) :=
  match regex.toList with
  | '/' :: body => Slashed.unescape? body.dropLast
  | _ => none

def terminalRegex (s : Symbol) : String :=
  match s.kind with
  | .literal => literalRegex s.value
  | _ => patternRegex s.value

/-- Terminals and helper rules in order of first use. -/
structure Names where
  terminals : List Symbol := []
  helpers : List Symbol := []

namespace Names

/-- The terminals with one more, if it is new. -/
def addTerminal (n : Names) (s : Symbol) : Names :=
  if n.terminals.contains s.single then n else { n with terminals := n.terminals ++ [s.single] }

/-- The helper rules with one more, if it is new. -/
def addHelper (n : Names) (s : Symbol) : Names :=
  if n.helpers.contains s then n else { n with helpers := n.helpers ++ [s] }

def use (n : Names) (s : Symbol) : Names :=
  let n := if s.kind = .rule then n else n.addTerminal s
  if s.cardinality = .one then n else n.addHelper s

def terminal (n : Names) (s : Symbol) : String :=
  (if s.kind = .literal then "LIT" else "PAT") ++ toString (n.terminals.idxOf s.single)

def base (n : Names) (s : Symbol) : String :=
  if s.kind = .rule then mangle s.value else n.terminal s

def name (n : Names) (s : Symbol) : String :=
  if s.cardinality = .one then n.base s else "h_" ++ toString (n.helpers.idxOf s)

end Names

def namesOf (s : RuleSet) : Names :=
  (s.rules.flatMap fun r => r.alternatives.flatten).foldl Names.use {}

def label (rule : String) (index : Nat) : String :=
  "a" ++ toString index ++ "_" ++ mangle rule

/-- An alternative as a listing has it: the names of its symbols, and its label. -/
structure Expansion where
  symbols : List String
  label : String
deriving DecidableEq, Repr

/-- What a listing says: the alternatives of every rule, what every helper rule takes and how
often, and the regular expression of every terminal, each under its name. -/
structure Lines where
  rules : List (String × List Expansion)
  helpers : List (String × String × Cardinality)
  terminals : List (String × String)
deriving DecidableEq, Repr

def Expansion.text (e : Expansion) : String :=
  " ".intercalate e.symbols ++ " -> " ++ e.label

def Lines.text (l : Lines) : String :=
  let rules := l.rules.map fun (name, expansions) =>
    name ++ ": " ++ "\n    | ".intercalate (expansions.map Expansion.text)
  let helpers := l.helpers.map fun (name, base, often) => name ++ ": " ++ base ++ often.mark
  let terminals := l.terminals.map fun (name, regex) => name ++ ": " ++ regex
  "\n".intercalate (rules ++ helpers ++ terminals) ++ "\n"

/-- The alternatives of a rule, labelled by its name and their index. -/
def expansions (n : Names) (r : Rule) : List Expansion :=
  r.alternatives.zipIdx.map fun (alternative, q) => ⟨alternative.map n.name, label r.name q⟩

def translate (s : RuleSet) : Lines :=
  let n := namesOf s
  { rules := s.rules.map fun r => (mangle r.name, expansions n r)
    helpers := n.helpers.map fun x => (n.name x, n.base x, x.cardinality)
    terminals := n.terminals.map fun x => (n.terminal x, terminalRegex x) }

def text (s : RuleSet) : String :=
  (translate s).text

/-! ### Alternatives with bound parameters -/

/-- Where an action takes an argument from in an alternative: a constant text, or the
value of the symbol at a position. -/
inductive Binding where
  | const (text : String)
  | position (index : Nat)
deriving DecidableEq, Repr

/-- What a parameter is bound to in an alternative: a reference to the first symbol that
refers to its rule. -/
def bind? (alternative : List Symbol) : ParamSource → Option Binding
  | .const text => some (.const text)
  | .ref rule => (alternative.findIdx? (·.refersTo rule)).map .position
  | .index position => position.toNat?.map .position

/-- The value that a binding takes from those of an alternative's symbols. -/
def Binding.value (values : List Value) : Binding → Outcome Value
  | .const text => .ok (.text text)
  | .position index => .ofOption values[index]?

def paramsOf (r : Rule) : List ActionParam :=
  (r.action.map Action.params).getD []

/-- Binds the parameters of a rule's action in one of its alternatives. -/
def bindAll (r : Rule) (alternative : List Symbol) : Outcome (List (String × Binding)) :=
  (paramsOf r).mapM fun p => (Outcome.ofOption (bind? alternative p.source)).map (p.key, ·)

/-- An alternative of a rule, with the parameters of the rule's action bound. -/
structure Alternative where
  rule : Rule
  index : Nat
  params : List (String × Binding)
deriving DecidableEq, Repr

/-- The value of an alternative whose symbols have these values. -/
def Alternative.apply (a : Alternative) (ctx : ReadingContext) (values : List Value) :
    Outcome Value :=
  match a.rule.action with
  | none => .ok (Action.pass values)
  | some action => do
    let args ← a.params.mapM fun p => (p.2.value values).map (p.1, ·)
    Action.run action.name values (Table.ofList args) ctx

/-! ### Tables -/

/-- What the names of a listing stand for: labels for alternatives, and the names of
helper rules for optional and repeated symbols. -/
structure Tables where
  alternatives : Table Alternative
  helpers : Table Symbol

/-- The entries of a rule in the table of alternatives. -/
def entriesOf (r : Rule) : Outcome (List (String × Alternative)) :=
  r.alternatives.zipIdx.mapM fun (alternative, q) =>
    (bindAll r alternative).map fun params => (label r.name q, ⟨r, q, params⟩)

def tables (s : RuleSet) : Outcome Tables := do
  s.check
  let entries ← s.rules.mapM entriesOf
  let n := namesOf s
  return ⟨.ofList entries.flatten, .ofList (n.helpers.map fun x => (n.name x, x))⟩

end Listing

open Listing (Names Tables namesOf)

/-! ### Trees -/

/-- A tree of a text: the texts of terminals, and nodes with a name of the listing. -/
inductive Labelled where
  | token (text : String)
  | node (name : String) (children : List Labelled)
deriving Inhabited

namespace Labelled

/-- A tree below the helper rule of a symbol, if the symbol has one. -/
def wrap (n : Names) (x : Symbol) (t : Labelled) : Labelled :=
  if x.cardinality = .one then t else .node (n.name x) [t]

mutual

/-- The value of a tree, where the names of helper rules come before the labels of
alternatives. -/
def evaluate (t : Tables) (ctx : ReadingContext) : Labelled → Outcome Value
  | .token text => .ok (.text text)
  | .node name children => do
    let values ← evaluateAll t ctx children
    match t.helpers.find? name with
    | some x => return if x.cardinality = .optional then Action.first values else .list values
    | none =>
      let a ← Outcome.ofOption (t.alternatives.find? name)
      a.apply ctx values

/-- The values of several trees, from left to right. -/
def evaluateAll (t : Tables) (ctx : ReadingContext) : List Labelled → Outcome (List Value)
  | [] => .ok []
  | c :: cs => do
    let v ← c.evaluate t ctx
    let vs ← evaluateAll t ctx cs
    return v :: vs

end

end Labelled

/-! ### The tree of a derivation -/

def RuleSet.alternative (s : RuleSet) (rule : String) (index : Nat) : List Symbol :=
  ((s.find? rule).map fun r => r.alternatives.getD index []).getD []

namespace Derivation

mutual

/-- The tree of a derivation from a symbol: optional and repeated symbols have a node of
their helper rule, whether they are there or not. -/
def labelled (s : RuleSet) (n : Names) (x : Symbol) : Derivation → Labelled
  | .token text => .wrap n x (.token text)
  | .node rule q ds =>
    .wrap n x (.node (Listing.label rule q) (labelledAll s n (s.alternative rule q) ds))
  | .absent => .node (n.name x) []
  | .many ds => .node (n.name x) (labelledAll s n (List.replicate ds.length x.single) ds)

def labelledAll (s : RuleSet) (n : Names) (xs : List Symbol) : List Derivation → List Labelled
  | [] => []
  | d :: ds =>
    match xs with
    | [] => []
    | x :: xs => d.labelled s n x :: labelledAll s n xs ds

end

end Derivation

end Covenant
