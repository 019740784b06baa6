import Covenant.Grammar.RuleSet
import Covenant.Grammar.Source.Slashed

/-!
Writing grammar source.

The source of a rule set names the start rule, says whether there are expressions,
and then has one rule per line. Literals are JSON strings, patterns stand between
slashes, and an action's parameters are rule names, JSON strings or positions.
-/

namespace Covenant

namespace Symbol

/-- A symbol without its cardinality as it is written in source. -/
def body (s : Symbol) : String :=
  match s.kind with
  | .rule => s.value
  | .literal => JsonText.literal false s.value
  | .pattern => String.ofList ('/' :: Slashed.encode s.value.toList ++ ['/'])

def write (s : Symbol) : String :=
  s.body ++ s.cardinality.mark

end Symbol

def writeAlternative (a : List Symbol) : String :=
  " ".intercalate (a.map Symbol.write)

/-- The value of a parameter as it is written in source. -/
def ParamSource.write : ParamSource → String
  | .const text => JsonText.literal false text
  | .ref rule => rule
  | .index position => toString position

def ActionParam.write (p : ActionParam) : String :=
  p.key ++ "=" ++ p.source.write

def Action.write (a : Action) : String :=
  "\x7b% " ++ " ".intercalate (a.name :: a.params.map ActionParam.write) ++ " %\x7d"

/-- A comment on one line: its words with one space between. -/
def writeComment (comment : String) : String :=
  " ".intercalate (Text.words comment)

def Rule.write (r : Rule) : String :=
  r.name ++ " -> " ++ " | ".intercalate (r.alternatives.map writeAlternative)
    ++ (match r.action with
        | some a => " " ++ a.write
        | none => "")
    ++ (match r.comment with
        | some c => if c.isEmpty then "" else " # " ++ writeComment c
        | none => "")

namespace RuleSet

/-- The source of a rule set that starts at `start`. -/
def text (s : RuleSet) (start : String) : String :=
  "# clausegram grammar\n@start " ++ start ++ "\n"
    ++ (if s.expressions then "@expressions\n" else "")
    ++ String.join (s.rules.map fun r => r.write ++ "\n")

def write (s : RuleSet) : Outcome String := do
  s.check
  return s.text (s.start.getD "")

end RuleSet

end Covenant
