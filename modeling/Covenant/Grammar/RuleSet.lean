import Covenant.Grammar.Rule

/-!
Sets of grammar rules.

A rule set keeps its rules in order of insertion, each under a name of its own, and
never changes or drops one. `check` finds the first place at which a rule set is
incomplete: a missing start rule, a reference to a rule that is not there, or an
action that asks for a symbol that some alternative does not have.
-/

namespace Covenant

/-- Rules in order of insertion, the name of the start rule, and whether the template
they were made from holds expressions. -/
structure RuleSet where
  start : Option String := none
  expressions : Bool := false
  rules : List Rule := []
deriving Repr, Inhabited

namespace RuleSet

/-- The names of the rules, in order. -/
def names (s : RuleSet) : List String :=
  s.rules.map Rule.name

/-- Whether there is a rule of this name. -/
def has (s : RuleSet) (name : String) : Bool :=
  s.rules.any fun r => r.name == name

def find? (s : RuleSet) (name : String) : Option Rule :=
  s.rules.find? fun r => r.name == name

/-- The rule of this name, or the fault that there is none. -/
def get (s : RuleSet) (name : String) : Outcome Rule :=
  match s.find? name with
  | some r => .ok r
  | none => .fail (.grammar (.undefinedRule name))

/-- What keeps a rule from being added, if anything. -/
def obstacle? (s : RuleSet) (r : Rule) : Option Fault.Grammar :=
  if s.has r.name then some (.duplicateRule r.name)
  else if r.alternatives.isEmpty then some (.noAlternatives r.name)
  else if r.alternatives.any List.isEmpty then some (.emptyAlternative r.name)
  else none

def add (s : RuleSet) (r : Rule) : Outcome RuleSet :=
  match s.obstacle? r with
  | some c => .fail (.grammar c)
  | none => .ok { s with rules := s.rules ++ [r] }

/-- Adds rules one by one, skipping those whose name is taken if `skip` is set. The
result is the set with the rules that could be added before the first fault, and
that fault. -/
def addAll (s : RuleSet) (skip : Bool) : List Rule → RuleSet × Option Fault
  | [] => (s, none)
  | r :: rs =>
    if skip && s.has r.name then s.addAll skip rs
    else
      match s.add r with
      | .ok s => s.addAll skip rs
      | .error f => (s, some f)

/-- Adds the rules of another set. Only when all could be added do its expressions
count. -/
def extend (s other : RuleSet) (skip : Bool) : RuleSet × Option Fault :=
  match s.addAll skip other.rules with
  | (s, none) => ({ s with expressions := s.expressions || other.expressions }, none)
  | (s, some f) => (s, some f)

/-! ### Completeness -/

/-- Whether every alternative has what a parameter asks for. -/
def sourceFault? (r : Rule) : ParamSource → Option Fault.Grammar
  | .const _ => none
  | .ref target =>
    if r.alternatives.all fun a => a.any (·.refersTo target) then none
    else some (.actionReference r.name target)
  | .index position =>
    if r.alternatives.all fun a => 0 ≤ position && position < a.length then none
    else some (.actionPosition r.name position)

def ruleFault? (s : RuleSet) (r : Rule) : Option Fault.Grammar :=
  match r.references.find? fun name => !s.has name with
  | some name => some (.danglingReference r.name name)
  | none =>
    match r.action with
    | some a => a.params.findSome? fun p => sourceFault? r p.source
    | none => none

def fault? (s : RuleSet) : Option Fault.Grammar :=
  match s.start with
  | none => some .noStart
  | some start =>
    if s.has start then s.rules.findSome? s.ruleFault? else some (.undefinedStart start)

def check (s : RuleSet) : Outcome Unit :=
  match s.fault? with
  | some c => .fail (.grammar c)
  | none => .ok ()

/-! ### Views -/

theorem rules_add {s t : RuleSet} {r : Rule} (h : s.add r = .ok t) :
    t.rules = s.rules ++ [r] := by
  unfold add at h
  split at h
  · simp [Outcome.fail] at h
  · cases h
    rfl

end RuleSet

end Covenant
