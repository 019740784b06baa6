import Covenant.Chart.Tree
import Covenant.Grammar.RuleSet
import Covenant.Grammar.Source.Slashed

/-!
Derivations of a text in a rule set.

A derivation of a rule names an alternative and has one part per symbol of it: the
derivation of another rule, the matched text of a literal or pattern, nothing for an
absent optional symbol, or a list for a repeated one. To read texts, optional and
repeated symbols become goals of their own beside the rules (`Goal`), and the trees
of that grammar are exactly the derivations.
-/

namespace Covenant

/-- A derivation. -/
inductive Derivation where
  | token (text : String)
  | node (rule : String) (alternative : Nat) (parts : List Derivation)
  | absent
  | many (items : List Derivation)
deriving Inhabited

/-- A goal of reading: a rule, or an optional or repeated symbol. -/
inductive Goal where
  | rule (name : String)
  | optional (s : Symbol)
  | many (s : Symbol)
deriving DecidableEq, Hashable, Repr, Inhabited

/-- A literal or pattern with what it matches. -/
structure Terminal where
  symbol : Symbol
  pattern : Pattern
deriving DecidableEq, Repr

namespace Symbol

/-- The regular expression that a pattern is matched by: what becomes of it between slashes.
One that cannot stand between slashes is left as it is, and no text is read by it. -/
def regex (s : Symbol) : List Char :=
  (Slashed.respell? s.value.toList).getD s.value.toList

/-- What a literal or pattern matches; a pattern that cannot be read matches
nothing. -/
def toPattern (s : Symbol) : Pattern :=
  match s.kind with
  | .literal => .literal s.value.toList
  | _ => (Pattern.ofChars? s.regex).getD (.oneOf false [])

/-- A symbol without its cardinality as a part of a production. -/
def base (s : Symbol) : Part Goal Terminal :=
  match s.kind with
  | .rule => .goal (.rule s.value)
  | _ => .token ⟨s.single, s.toPattern⟩

def part (s : Symbol) : Part Goal Terminal :=
  match s.cardinality with
  | .one => s.base
  | .optional => .goal (.optional s.single)
  | .many => .goal (.many s.single)

/-- The goal that an optional or repeated symbol adds. -/
def goal? (s : Symbol) : Option Goal :=
  match s.cardinality with
  | .one => none
  | .optional => some (.optional s.single)
  | .many => some (.many s.single)

end Symbol

/-- The productions of a goal, where `rule?` finds rules. An optional symbol is absent
or there; a repeated one is absent or there once more at the end. -/
def Goal.productions (rule? : String → Option Rule) : Goal → List (List (Part Goal Terminal))
  | .rule name =>
    match rule? name with
    | some r => r.alternatives.map (·.map Symbol.part)
    | none => []
  | .optional s => [[], [s.base]]
  | .many s => [[], [.goal (.many s), s.base]]

namespace RuleSet

/-- The goals of a rule set: its rules, and its optional and repeated symbols. -/
def goals (s : RuleSet) : List Goal :=
  (s.rules.map fun r => Goal.rule r.name)
    ++ (s.rules.flatMap fun r => r.alternatives.flatten.filterMap Symbol.goal?).eraseDups

/-- The grammar by which texts are read. The productions of all goals are worked out
once. -/
def cfg (s : RuleSet) : Cfg Goal Terminal :=
  let table : Std.HashMap Goal (List (List (Part Goal Terminal))) :=
    .ofList (s.goals.map fun g => (g, g.productions s.find?))
  { goals := s.goals
    productions := fun g => table.getD g []
    tokens := fun t cs => t.pattern.tokenLengths cs }

end RuleSet

namespace Tree

mutual

def derivation : Tree Goal → Derivation
  | .leaf _ text => .token (String.ofList text)
  | .node (.rule name) q ts => .node name q (derivations ts)
  | .node (.optional _) _ ts =>
    match derivations ts with
    | d :: _ => d
    | [] => .absent
  | .node (.many _) _ ts => .many (itemsOf ts)

def derivations : List (Tree Goal) → List Derivation
  | [] => []
  | t :: ts => t.derivation :: derivations ts

/-- The items of a repeated symbol: those of the shorter repetition, and one more. -/
def itemsOf : List (Tree Goal) → List Derivation
  | [.node (.many _) _ ts, t] => itemsOf ts ++ [t.derivation]
  | _ => []

end

end Tree

end Covenant
