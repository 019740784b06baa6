import Covenant.Format.Monetary

/-!
Semantic actions.

An action turns the values of the symbols of a matched alternative, and its own
arguments, into the value of the rule. Actions are known by name; without one, a rule
passes on the value of a single symbol and makes a list of several.
-/

namespace Covenant

/-- What actions may depend on besides the text: the offset of the reader's clock in
seconds, if known, the settings, and the time zones that are known by name. -/
structure ReadingContext where
  clock : Option Int := none
  settings : Settings := {}
  zones : String → Option Zone := fun _ => none

/-- The zone of the settings; a zone that is not known stands for universal time. -/
def ReadingContext.zone (ctx : ReadingContext) : Zone :=
  (ctx.zones ctx.settings.timezone).getD {}

namespace Action

/-- The first value, or null. -/
def first (values : List Value) : Value :=
  values.headD .null

/-- The argument under a key that has to be there. -/
def argument (args : Table Value) (key : String) : Outcome Value :=
  .ofOption (args.find? key)

def formatArgument (args : Table Value) : Outcome String := do
  match ← argument args "format" with
  | .text s => return s
  | _ => .fail .undefined

/-- The format among the arguments of a date, where anything unset counts as an empty
format. -/
def dateFormatArgument (args : Table Value) : Outcome String := do
  let v ← argument args "format"
  match v with
  | .text s => return s
  | v => if v.isSet then .fail .undefined else return ""

def readJson (v : Value) : Outcome Value :=
  match v with
  | .text s =>
    match Json.read s with
    | .ok v => .ok v
    | .error f => .fail (if f.issue = .longNumeral then .undefined else .json f)
  | _ => .fail .undefined

def concat (args : Table Value) : Outcome Value := do
  let rest := (args.find? "rest").getD .null
  let first ← argument args "first"
  let rest ← if rest.isSet then Outcome.ofOption rest.members? else pure []
  return .list (first :: rest)

/-- The value of a rule with the action `name`. -/
def run (name : String) (values : List Value) (args : Table Value) (ctx : ReadingContext) :
    Outcome Value :=
  match name with
  | "string" => readJson (first values)
  | "integer" => (Outcome.ofOption (first values).toInt?).map .int
  | "double" => (Outcome.ofOption (first values).toDouble?).map .double
  | "boolean" => .ok (.bool ((first values).same (.text "true")))
  | "enum" => .ok (first values)
  | "text" => .ok (.text (Value.flatAll values))
  | "present" => .ok (.bool !(first values).isNull)
  | "absent" => .ok (.bool (first values).isNull)
  | "equals" => (argument args "value").map fun v => .bool ((first values).same v)
  | "concat" => concat args
  | "object" => .ok (.object (args.filter fun e => !e.2.isNull))
  | "datetime" => do
    let format ← dateFormatArgument args
    (DateTime.read (Value.flatAll values) format ctx.clock ctx.zone).map .text
  | "amount" => do
    let format ← formatArgument args
    (Amount.read (Value.flatAll values) format).map .double
  | "monetary" => do
    let format ← formatArgument args
    Monetary.read (Value.flatAll values) format
  | name => .fail (.grammar (.unknownAction name))

def pass : List Value → Value
  | [v] => v
  | vs => .list vs

/-- The value that a parameter takes from the matched alternative: a constant, the
value of the first symbol that refers to a rule, or that at a position. -/
def bind (alternative : List Symbol) (values : List Value) : ParamSource → Outcome Value
  | .const text => .ok (.text text)
  | .ref rule => .ofOption ((alternative.findIdx? (·.refersTo rule)).bind (values[·]?))
  | .index position => .ofOption (if position < 0 then none else values[position.toNat]?)

end Action

/-- The value of a matched alternative. A key that is bound twice keeps its first
place and its last value. -/
def Rule.apply (r : Rule) (ctx : ReadingContext) (alternative : List Symbol)
    (values : List Value) : Outcome Value :=
  match r.action with
  | none => .ok (Action.pass values)
  | some a => do
    let args ← a.params.mapM fun p => (Action.bind alternative values p.source).map (p.key, ·)
    Action.run a.name values (Table.ofList args) ctx

namespace Derivation

mutual

/-- The value of a derivation, worked out from its parts. -/
def evaluate (s : RuleSet) (ctx : ReadingContext) : Derivation → Outcome Value
  | .token t => .ok (.text t)
  | .absent => .ok .null
  | .many ds => (evaluateAll s ctx ds).map .list
  | .node rule q ds => do
    let values ← evaluateAll s ctx ds
    let r ← s.get rule
    r.apply ctx (r.alternatives.getD q []) values

/-- The values of several derivations, from left to right. -/
def evaluateAll (s : RuleSet) (ctx : ReadingContext) : List Derivation → Outcome (List Value)
  | [] => .ok []
  | d :: ds => do
    let v ← d.evaluate s ctx
    let vs ← evaluateAll s ctx ds
    return v :: vs

end

end Derivation

end Covenant
