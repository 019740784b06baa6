import Covenant.Markup.Node
import Covenant.Schema.Rules

/-!
Grammar rules of templates.

A level of a template becomes one rule per node, named by the level's stem and the
node's index, and a rule of the name of the stem that reads them one after the other
and builds the value of the level's type. The stem of the whole template is `rule`; a
block's stem is its field. Every field has to be declared and to fit its use. The
rules of the types that the template's type leads to come last.
-/

namespace Covenant.Markup

/-- What the rules of a template depend on: the types, the settings, the name of the
template's file, and the supply of identifiers for the values that need one. -/
structure Compiler where
  catalog : Catalog
  settings : Settings := {}
  file : String := ""
  identifier : Nat → String

/-- The rules made so far, and the number of identifiers used. -/
structure Progress where
  rules : RuleSet := {}
  issued : Nat := 0

/-- Making rules. What was done before a fault stays done. -/
abbrev Compile := ExceptT Fault (StateM Progress)

def ofOutcome {α : Type} (o : Outcome α) : Compile α :=
  match o with
  | .ok a => pure a
  | .error f => throw f

/-- A level: the type of its value, and the stem of the names of its rules. -/
structure Level where
  type : SchemaType
  stem : String

/-- A node of a level with the way to make its rule. -/
structure Member where
  node : Node
  rule : Level → String → Compile Rule

def topStem : String := "rule"

namespace Compiler

/-! ### Fitting the schema -/

def refuse {α : Type} (c : Compiler) (n : Node) (cause : Fault.Cause) : Compile α := do
  let span ← ofOutcome n.span
  throw { cause, file := some c.file, span }

def property (c : Compiler) (lv : Level) (n : Node) (field : String) : Compile Property :=
  match lv.type.property? field with
  | some p => pure p
  | none => c.refuse n (.structural (.undeclaredProperty field lv.type.fqn))

/-- The truth value that a conditional depends on. -/
def booleanProperty (c : Compiler) (lv : Level) (n : Node) (field : String) : Compile Unit := do
  let p ← c.property lv n field
  if p.type ≠ "Boolean" ∨ p.array then
    c.refuse n (.structural (.notBoolean field p.typeName))

def blockType (c : Compiler) (n : Node) (kind : BlockKind) (p : Property) :
    Compile SchemaType := do
  if p.isPrimitive || p.relationship then
    c.refuse n (.structural (.notComplex kind.keyword p.name p.typeName))
  let d ← ofOutcome (c.catalog.get p.type)
  if d.isEnum || d.abstract then
    c.refuse n (.structural (.notConcrete kind.keyword p.name p.typeName))
  return d

def comment (lv : Level) (field : String) : String :=
  lv.type.fqn ++ "." ++ field

/-! ### Rules of nodes -/

def textRule (body name : String) : Rule :=
  { name, alternatives := [[.literal body]] }

/-- The rule of a text that is there when a truth value is set. -/
def shownRule (c : Compiler) (n : Node) (field whenTrue : String) (lv : Level) (name : String) :
    Compile Rule := do
  c.booleanProperty lv n field
  if whenTrue.isEmpty then c.refuse n (.structural (.emptyIf field))
  return { name, alternatives := [[.literal whenTrue .optional]]
           action := some ⟨"present", []⟩, comment := some (comment lv field) }

def choiceRule (c : Compiler) (n : Node) (field whenTrue whenFalse : String) (lv : Level)
    (name : String) : Compile Rule := do
  c.booleanProperty lv n field
  if whenTrue = whenFalse then c.refuse n (.structural (.sameBranches field))
  let (alternatives, action) : List (List Symbol) × Action :=
    if whenFalse.isEmpty then ([[.literal whenTrue .optional]], ⟨"present", []⟩)
    else if whenTrue.isEmpty then ([[.literal whenFalse .optional]], ⟨"absent", []⟩)
    else ([[.literal whenTrue], [.literal whenFalse]],
      ⟨"equals", [⟨"value", .const whenTrue⟩]⟩)
  return { name, alternatives, action := some action, comment := some (comment lv field) }

/-- The name of the rule for a format of a property, which is added if it is new. -/
def formatTarget (c : Compiler) (n : Node) (p : Property) (format : String) :
    Compile String := do
  match if p.relationship then none else Formatted.ofType? p.type with
  | none => c.refuse n (.structural (.unformattable p.typeName))
  | some k =>
    match k.rule format with
    | .error f => c.refuse n f.cause
    | .ok r =>
      modify fun s =>
        if s.rules.has r.name then s
        else { s with rules := { s.rules with rules := s.rules.rules ++ [r] } }
      return r.name

def bindingRule (c : Compiler) (n : Node) (field : String) (format : Option String) (lv : Level)
    (name : String) : Compile Rule := do
  let p ← c.property lv n field
  let target ← match format with
    | none => pure p.ruleName
    | some format => c.formatTarget n p format
  return { name, alternatives := [[.rule target p.cardinality]]
           comment := some (comment lv field) }

def expressionRule (body name : String) : Compile Rule := do
  modify fun s => { s with rules := { s.rules with expressions := true } }
  return { name, alternatives := [[.rule anyRule]], comment := some ("expression " ++ body) }

/-! ### Levels -/

/-- Adds a rule on behalf of a node, or of a whole level. -/
def addRule (c : Compiler) (n? : Option Node) (r : Rule) : Compile Unit := do
  match (← get).rules.obstacle? r with
  | none => modify fun s => { s with rules := { s.rules with rules := s.rules.rules ++ [r] } }
  | some cause =>
    match n? with
    | some n => c.refuse n (.structural (.rule cause))
    | none => throw { cause := .structural (.rule cause), file := some c.file }

def issue (c : Compiler) : Compile String :=
  modifyGet fun s => (c.identifier s.issued, { s with issued := s.issued + 1 })

/-- Adds the rule of a node: its name, and the field that it binds. Empty texts have no
rule. -/
def addMember (c : Compiler) (lv : Level) (m : Member) (index : Nat) :
    Compile (Option (String × Option String)) := do
  match m.node with
  | .text "" .. => return none
  | _ =>
    let name := lv.stem ++ toString index
    let r ← m.rule lv name
    c.addRule (some m.node) r
    return some (name, m.node.field?)

/-- The parameters by which the rule of a level builds a value: the type, the
identifier, and each property from the first node that binds it. -/
def levelParams (c : Compiler) (type : SchemaType) (bound : List (String × String)) :
    Compile (List ActionParam) := do
  let identifier : List ActionParam ← match type.identifier? with
    | some key => do
      let id ← c.issue
      pure [⟨key, .const id⟩]
    | none => pure []
  return ⟨classKey, .const type.fqn⟩ :: identifier ++ type.properties.filterMap fun p =>
    if type.identifier? = some p.name then none
    else (bound.lookup p.name).map fun name => ⟨p.name, .ref name⟩

def addLevel (c : Compiler) (lv : Level) (members : List Member) : Compile Unit := do
  let parts ← members.zipIdx.filterMapM fun (m, i) => c.addMember lv m i
  if parts.isEmpty then
    throw { cause := .structural (.emptyLevel lv.type.fqn), file := some c.file }
  let bound := parts.filterMap fun (name, field?) => field?.map (·, name)
  let params ← c.levelParams lv.type bound
  c.addRule none
    { name := lv.stem, alternatives := [parts.map fun e => .rule e.1]
      action := some ⟨"object", params⟩, comment := some lv.type.fqn }

def textMember (n : Node) : Member :=
  match n with
  | .text body .. => ⟨n, fun _ name => pure (textRule body name)⟩
  | n => ⟨n, fun _ name => pure (textRule "" name)⟩

/-- Adds the rules of a level with a text in front of it. -/
def addLedLevel (c : Compiler) (lv : Level) (start : String) (members : List Member) :
    Compile Unit := do
  let led ← ofOutcome (leadMembers Member.node textMember start members)
  c.addLevel lv led

/-- The rule of a clause or a value with a level of its own. -/
def nestedRule (c : Compiler) (n : Node) (kind : BlockKind) (field : String)
    (members : List Member) (lv : Level) (name : String) : Compile Rule := do
  let p ← c.property lv n field
  let type ← c.blockType n kind p
  c.addLevel ⟨type, field⟩ members
  return { name, alternatives := [[.rule field p.cardinality]]
           comment := some (comment lv field ++ " (" ++ kind.keyword ++ ")") }

/-- The rule of a list: its first item, and the others with what sets them apart. -/
def listRule (c : Compiler) (n : Node) (style : ListStyle) (field : String)
    (members : List Member) (lv : Level) (name : String) : Compile Rule := do
  let p ← c.property lv n field
  unless p.array do c.refuse n (.structural (.notArray field p.typeName))
  let type ← c.blockType n (.list style) p
  let (first, later) := style.leads c.settings
  let firstStem := field ++ "First"
  c.addLedLevel ⟨type, firstStem⟩ first members
  c.addLedLevel ⟨type, field⟩ later members
  return { name, alternatives := [[.rule firstStem, .rule field .many]]
           action := some ⟨"concat", [⟨"first", .ref firstStem⟩, ⟨"rest", .ref field⟩]⟩
           comment := some (comment lv field) }

mutual

def ruleOf (c : Compiler) : Node → Level → String → Compile Rule
  | .text body _ _ => fun _ name => pure (textRule body name)
  | .binding field format place => c.bindingRule (.binding field format place) field format
  | .formatted field format place =>
    c.bindingRule (.formatted field format place) field (some format)
  | .shown field whenTrue place => c.shownRule (.shown field whenTrue place) field whenTrue
  | .choice field whenTrue whenFalse place =>
    c.choiceRule (.choice field whenTrue whenFalse place) field whenTrue whenFalse
  | .block kind field nested place =>
    let n := Node.block kind field nested place
    let members := c.membersOf nested
    match kind with
    | .list style => c.listRule n style field members
    | kind => c.nestedRule n kind field members
  | .expression body _ => fun _ name => expressionRule body name
  | .foreign kind field line column => fun _ _ =>
    c.refuse (.foreign kind field line column) (.structural (.unknownNode kind))

def membersOf (c : Compiler) : List Node → List Member
  | [] => []
  | n :: ns => ⟨n, c.ruleOf n⟩ :: c.membersOf ns

end

/-! ### Whole templates -/

/-- Adds the rules of types. A rule of the template must not have the name of one of
them. -/
def addTypes (c : Compiler) (set : RuleSet) : List Rule → Outcome RuleSet
  | [] => .ok set
  | r :: rs =>
    match set.find? r.name with
    | none => c.addTypes { set with rules := set.rules ++ [r] } rs
    | some present =>
      if present.origin = .template then
        .error { cause := .structural (.clash r.name), file := some c.file }
      else c.addTypes set rs

/-- The rules of the nodes of a template for a type, where `issued` identifiers have been
used before. The number of identifiers used afterwards is told in any case. -/
def nodeRules (c : Compiler) (nodes : List Node) (type : SchemaType) (issued : Nat) :
    Outcome RuleSet × Nat :=
  let (o, s) := (c.addLevel ⟨type, topStem⟩ (c.membersOf nodes)).run { issued }
  (o.map fun _ => s.rules, s.issued)

/-- The rules of the nodes of a template with those of the types, which have to be
complete. -/
def withTypes (c : Compiler) (own types : RuleSet) : Outcome RuleSet := do
  let set ← c.addTypes { own with start := some topStem } types.rules
  set.check
  return set

/-- The rules of a template for a type, where `issued` identifiers have been used
before. The number of identifiers used afterwards is told in any case. -/
def compile (c : Compiler) (nodes : List Node) (type : SchemaType) (issued : Nat := 0) :
    Outcome RuleSet × Nat :=
  let (own, issued) := c.nodeRules nodes type issued
  (own.bind fun own =>
    (c.catalog.rules c.settings type.fqn).bind fun types => c.withTypes own types, issued)

end Compiler

end Covenant.Markup
