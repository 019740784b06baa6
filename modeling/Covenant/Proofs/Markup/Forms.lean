import Covenant.Proofs.Markup.Evaluation
import Covenant.Proofs.Markup.Source

/-!
The forms of the rules of templates.

* `Rule.Form`: the forms of the rules that templates and types have.
* `Compiler.formed_ruleOf`: the rules that a node adds have such a form, one case for each kind
  of node.
* `Catalog.form_of_rules`: so have all rules that go with a type.
* `Compiler.formed_compile`: and all rules of a template.
-/

namespace Covenant

/-! ### Forms of rules -/

/-- The actions that make a value of whatever they are given. -/
def totalActions : List String :=
  ["boolean", "enum", "text", "present", "absent", "object"]

theorem object_mem_totalActions : "object" ∈ totalActions := by
  decide

/-- **The forms of the rules that templates and types have**: rules without an action, rules with
an action that always succeeds, choices between two texts, lists, primitive types, and
formats. -/
inductive Rule.Form (r : Rule) : Prop where
  | passes (h : r.action = none)
  | total {a : Action} (h : r.action = some a) (htotal : a.name ∈ totalActions)
  | equals {text : String} (h : r.action = some ⟨"equals", [⟨"value", .const text⟩]⟩)
  | concat {first rest : String} (hne : first ≠ rest)
      (halternatives : r.alternatives = [[.rule first, .rule rest .many]])
      (h : r.action = some ⟨"concat", [⟨"first", .ref first⟩, ⟨"rest", .ref rest⟩]⟩)
  | primitive {t : Primitive} {regex action : String} (ht : t.pattern? = some (regex, action))
      (halternatives : r.alternatives = [[.pattern regex]]) (h : r.action = some ⟨action, []⟩)
  | format {k : Formatted} {format : String} {w : Rule} (hw : k.rule format = .ok w)
      (halternatives : r.alternatives = w.alternatives) (h : r.action = w.action)

/-! ### Rules of types -/

namespace Catalog

/-- The rules of the primitives: a pattern with its action, a format, or a rule that passes on. -/
theorem PrimitiveRule.form {s : Settings} {r : Rule} (h : PrimitiveRule s r) : r.Form := by
  cases h with
  | pattern _ hpattern => exact .primitive hpattern rfl rfl
  | format hw => exact .format (k := .date) hw rfl rfl
  | date => exact .passes rfl
  | any => exact .total rfl (by decide)

/-- The rules of the types build objects, pass a value on or show a format. -/
theorem form_of_rulesOf {c : Catalog} {d : SchemaType} {rs : List Rule} (h : c.rulesOf d = .ok rs) :
    ∀ r ∈ rs, r.Form := by
  unfold rulesOf at h
  split at h
  · cases h
    exact List.forall_mem_singleton.mpr (.total rfl (by decide))
  · split at h
    · obtain ⟨w, hw, h⟩ := Outcome.bind_eq_ok.mp h
      cases h
      have hmoney : Rule.Form w := .format (k := .monetary) hw rfl rfl
      exact List.forall_mem_cons.mpr ⟨hmoney, List.forall_mem_singleton.mpr (.passes rfl)⟩
    · split at h
      · obtain ⟨r, hr, rfl⟩ := Outcome.map_eq_ok.mp h
        obtain ⟨subtypes, -, hr⟩ := Outcome.bind_eq_ok.mp hr
        split at hr
        · cases hr
        · cases hr
          exact List.forall_mem_singleton.mpr (.passes rfl)
      · cases h
        exact List.forall_mem_singleton.mpr (.total rfl object_mem_totalActions)

/-- **The rules that go with a type** have such a form. -/
theorem form_of_rules {c : Catalog} {s : Settings} {root : String} {set : RuleSet}
    (h : c.rules s root = .ok set) : ∀ r ∈ set.rules, r.Form := by
  obtain ⟨-, base, types, hbase, -, hmem⟩ := mem_rules h
  intro r hr
  rcases hmem r hr with hr | ⟨d, -, rs, hrs, hr⟩
  · exact PrimitiveRule.form (primitiveRule_of_mem hbase hr)
  · exact form_of_rulesOf hrs r hr

end Catalog

namespace Markup

open Compile

namespace Compiler

variable {c : Compiler}

/-! ### Rules of nodes -/

def AllFormed (s : RuleSet) : Prop :=
  ∀ r ∈ s.rules, r.Form

theorem AllFormed.append {s : RuleSet} (hs : AllFormed s) {r : Rule} (hr : r.Form) :
    AllFormed { s with rules := s.rules ++ [r] } :=
  List.forall_mem_append.mpr ⟨hs, List.forall_mem_singleton.mpr hr⟩

/-- A step that adds rules of such a form and gives one. -/
def Formed (x : Compile Rule) : Prop :=
  Ensures AllFormed x fun s r => AllFormed s ∧ r.Form

/-- Adding a formed rule keeps the set formed. -/
theorem formed_addRule (n? : Option Node) {r : Rule} (hr : r.Form) :
    Ensures AllFormed (c.addRule n? r) fun s _ => AllFormed s := by
  intro s hs a s' hexec
  unfold addRule at hexec
  rw [exec_bind] at hexec
  have hget : (get : Compile Progress).exec s = (.ok s, s) := rfl
  rw [hget] at hexec
  simp only at hexec
  cases hobstacle : s.rules.obstacle? r with
  | none =>
    rw [hobstacle] at hexec
    cases hexec
    exact hs.append hr
  | some cause =>
    rw [hobstacle] at hexec
    cases n? with
    | none => cases hexec
    | some n => exact ensures_refuse c n _ (fun s _ => AllFormed s) s hs a s' hexec

section Node

variable {n : Node} {field name : String} {lv : Level}

theorem formed_textRule (body : String) : Formed (pure (textRule body name)) :=
  ensures_pure fun _ hs => ⟨hs, .passes rfl⟩

theorem formed_expressionRule (body : String) : Formed (expressionRule body name) := by
  intro s hs r s' hexec
  cases hexec
  exact ⟨hs, .passes rfl⟩

theorem formed_shownRule (whenTrue : String) : Formed (c.shownRule n field whenTrue lv name) := by
  unfold shownRule
  refine (ensures_booleanProperty n field).bind fun _ => ?_
  split
  · exact (ensures_refuse c n _ fun s _ => AllFormed s).bind fun _ => ensures_pure fun s hs =>
      ⟨hs, .total rfl (by decide)⟩
  · exact ensures_pure fun s hs => ⟨hs, .total rfl (by decide)⟩

theorem formed_choiceRule (whenTrue whenFalse : String) :
    Formed (c.choiceRule n field whenTrue whenFalse lv name) := by
  unfold choiceRule
  refine (ensures_booleanProperty n field).bind fun _ => ?_
  split
  rename_i alternatives action hchoice
  have hform : ∀ comment, Rule.Form { name, alternatives, action := some action, comment } := by
    intro comment
    split at hchoice
    · cases hchoice
      exact .total rfl (by decide)
    · split at hchoice <;> cases hchoice
      · exact .total rfl (by decide)
      · exact .equals rfl
  split
  · exact (ensures_refuse c n _ fun s _ => AllFormed s).bind fun _ => ensures_pure fun s hs =>
      ⟨hs, hform _⟩
  · exact ensures_pure fun s hs => ⟨hs, hform _⟩

theorem formed_formatTarget (p : Property) (format : String) :
    Ensures AllFormed (c.formatTarget n p format) fun s _ => AllFormed s := by
  unfold formatTarget
  split
  · exact ensures_refuse c n _ _
  · rename_i k hk
    split
    · exact ensures_refuse c n _ _
    · rename_i r hr
      intro s hs x s' hexec
      cases hexec
      change AllFormed (if s.rules.has r.name then s
        else { s with rules := { s.rules with rules := s.rules.rules ++ [r] } } : Progress).rules
      split
      · exact hs
      · exact hs.append (.format hr rfl rfl)

/-- The rule of a binding is formed. -/
theorem formed_bindingRule (format : Option String) :
    Formed (c.bindingRule n field format lv name) := by
  unfold bindingRule
  refine (ensures_property n field).bind fun p => ?_
  have hrest : ∀ target, Ensures AllFormed (pure
      { name, alternatives := [[.rule target p.cardinality]]
        comment := some (comment lv field) } : Compile Rule)
      fun s r => AllFormed s ∧ r.Form :=
    fun target => ensures_pure fun s hs => ⟨hs, .passes rfl⟩
  cases format with
  | none => exact (ensures_pure fun s hs => hs.1).bind hrest
  | some f => exact ((formed_formatTarget p f).mono (fun s hs => hs.1) fun s _ h => h).bind hrest

end Node

/-! ### Levels -/

/-- A member whose rule has such a form in every level. -/
def FormedMember (m : Member) : Prop :=
  ∀ lv name, Formed (m.rule lv name)

theorem formed_addMember (lv : Level) {m : Member} (hm : FormedMember m) (i : Nat) :
    Ensures AllFormed (c.addMember lv m i) fun s _ => AllFormed s := by
  unfold addMember
  split
  · exact ensures_pure fun s hs => hs
  · refine (hm lv _).bind fun r => Ensures.assume (fun s hs => hs.2) fun hr => ?_
    exact ((formed_addRule _ hr).mono (fun s hs => hs.1) fun s _ h => h).bind fun _ =>
      ensures_pure fun s hs => hs

theorem formed_levelParams (d : SchemaType) (bound : List (String × String)) :
    Ensures AllFormed (c.levelParams d bound) fun s _ => AllFormed s := by
  unfold levelParams
  split
  · have hissue : Ensures AllFormed c.issue fun s _ => AllFormed s := by
      intro s hs a s' hexec
      cases hexec
      exact hs
    refine hissue.bind fun id => ?_
    rw [pure_bind]
    exact ensures_pure fun s hs => hs
  · exact ensures_pure fun s hs => hs

/-- **A level of formed members** adds rules of such a form. -/
theorem formed_addLevel (lv : Level) {ms : List Member} (hms : ∀ m ∈ ms, FormedMember m) :
    Ensures AllFormed (c.addLevel lv ms) fun s _ => AllFormed s := by
  unfold addLevel
  have hmembers : Ensures AllFormed
      (ms.zipIdx.filterMapM fun e => c.addMember lv e.1 e.2) fun s _ => AllFormed s :=
    ensures_filterMapM fun e he =>
      formed_addMember lv (hms e.1 (List.fst_mem_of_mem_zipIdx he)) e.2
  refine hmembers.bind fun parts => ?_
  have hrest : Ensures AllFormed (do
      let params ← c.levelParams lv.type (parts.filterMap fun e => e.2.map (·, e.1))
      c.addRule none
        { name := lv.stem, alternatives := [parts.map fun e => .rule e.1]
          action := some ⟨"object", params⟩, comment := some lv.type.fqn })
      fun s _ => AllFormed s :=
    (formed_levelParams _ _).bind fun params => formed_addRule none (.total rfl object_mem_totalActions)
  split
  · exact (ensures_throw _ fun s _ => AllFormed s).bind fun _ => hrest
  · exact hrest

/-! ### Blocks -/

theorem formedMember_textMember (n : Node) : FormedMember (textMember n) := by
  intro lv name
  unfold textMember
  split <;> exact formed_textRule _

theorem formedMember_lead {ms : List Member} (hms : ∀ m ∈ ms, FormedMember m) {start : String}
    {led : List Member} (h : leadMembers Member.node textMember start ms = .ok led) :
    ∀ m ∈ led, FormedMember m := by
  unfold leadMembers at h
  split at h
  · cases h
    exact hms
  · split at h
    · cases h
      exact List.forall_mem_singleton.mpr (formedMember_textMember _)
    · obtain ⟨hfirst, hrest⟩ := List.forall_mem_cons.mp hms
      split at h
      · cases h
        exact List.forall_mem_cons.mpr ⟨formedMember_textMember _, hrest⟩
      · split at h
        · cases h
          exact List.forall_mem_cons.mpr ⟨formedMember_textMember _, hms⟩
        · cases h

/-- A level, led or not, adds formed rules. -/
theorem formed_addLedLevel (lv : Level) {ms : List Member} (hms : ∀ m ∈ ms, FormedMember m)
    (start : String) :
    Ensures AllFormed (c.addLedLevel lv start ms) fun s _ => AllFormed s :=
  ensures_ofOutcome.bind fun _ => Ensures.assume (fun _ hs => hs.2) fun hled =>
    (formed_addLevel lv (formedMember_lead hms hled)).mono (fun _ hs => hs.1) fun _ _ h => h

section Block

variable {n : Node} {field name : String} {lv : Level} {ms : List Member}
  (hms : ∀ m ∈ ms, FormedMember m)

include hms

/-- The rule of a block is formed. -/
theorem formed_nestedRule (kind : BlockKind) : Formed (c.nestedRule n kind field ms lv name) := by
  unfold nestedRule
  refine (ensures_property n field).bind fun p => ?_
  refine ((ensures_blockType n kind p).mono (fun s hs => hs.1) fun s _ h => h).bind fun e => ?_
  refine ((formed_addLevel ⟨e, field⟩ hms).mono (fun s hs => hs.1) fun s _ h => h).bind fun _ => ?_
  exact ensures_pure fun s hs => ⟨hs, .passes rfl⟩

/-- The rule of a list is formed. -/
theorem formed_listRule (style : ListStyle) : Formed (c.listRule n style field ms lv name) := by
  unfold listRule
  refine (ensures_property n field).bind fun p => ?_
  have hrest : Ensures AllFormed (do
      let e ← c.blockType n (.list style) p
      let firstStem := field ++ "First"
      c.addLedLevel ⟨e, firstStem⟩ (style.leads c.settings).1 ms
      c.addLedLevel ⟨e, field⟩ (style.leads c.settings).2 ms
      return { name, alternatives := [[.rule firstStem, .rule field .many]]
               action := some ⟨"concat", [⟨"first", .ref firstStem⟩, ⟨"rest", .ref field⟩]⟩
               comment := some (comment lv field) } : Compile Rule)
      fun s r => AllFormed s ∧ r.Form := by
    refine (ensures_blockType n _ p).bind fun e => ?_
    refine ((formed_addLedLevel _ hms _).mono (fun s hs => hs.1) fun s _ h => h).bind fun _ => ?_
    refine (formed_addLedLevel _ hms _).bind fun _ => ensures_pure fun s hs => ⟨hs, ?_⟩
    exact .concat (first_ne field) rfl rfl
  by_cases harray : p.array = true
  · rw [if_pos harray]
    exact hrest.mono (fun s hs => hs.1) fun s _ h => h
  · rw [if_neg harray]
    exact (ensures_refuse c n _ fun s _ => AllFormed s).bind fun _ => hrest

end Block

/-! ### Nodes -/

mutual

/-- **The rule of a node has such a form**, and so have those that are added for it. -/
theorem formed_ruleOf : ∀ (n : Node) (lv : Level) (name : String), Formed (c.ruleOf n lv name)
  | .text body _ _, _, _ => formed_textRule body
  | .expression body _, _, _ => formed_expressionRule body
  | .shown _ whenTrue _, _, _ => by
    rw [ruleOf]
    exact formed_shownRule whenTrue
  | .choice _ whenTrue whenFalse _, _, _ => by
    rw [ruleOf]
    exact formed_choiceRule whenTrue whenFalse
  | .binding _ format _, _, _ => by
    rw [ruleOf]
    exact formed_bindingRule format
  | .formatted _ format _, _, _ => by
    rw [ruleOf]
    exact formed_bindingRule (some format)
  | .foreign kind field line column, _, _ => by
    rw [ruleOf]
    exact ensures_refuse c _ _ _
  | .block kind field nested place, _, _ => by
    have hnested := formedMember_membersOf nested
    cases kind with
    | clause => exact formed_nestedRule hnested .clause
    | within => exact formed_nestedRule hnested .within
    | list style => exact formed_listRule hnested style

/-- Every member makes a formed rule, by induction on the nodes. -/
theorem formedMember_membersOf : ∀ ns : List Node, ∀ m ∈ c.membersOf ns, FormedMember m
  | [] => by simp [membersOf]
  | n :: ns => by
    rw [membersOf]
    exact List.forall_mem_cons.mpr ⟨formed_ruleOf n, formedMember_membersOf ns⟩

end

/-! ### Whole templates -/

theorem AllFormed.addTypes {set set' : RuleSet} {rs : List Rule} (hset : AllFormed set)
    (hrs : ∀ r ∈ rs, r.Form) (h : c.addTypes set rs = .ok set') : AllFormed set' :=
  addTypes_induction (fun _ r hr _ hs => hs.append (hrs r hr)) hset h

/-- **The rules of a template have such a form**, and they are complete. -/
theorem formed_compile {d : SchemaType} {nodes : List Node} {issued : Nat} {set : RuleSet}
    (h : (c.compile nodes d issued).1 = .ok set) : AllFormed set ∧ set.check = .ok () := by
  obtain ⟨own, types, hown, htypes, hjoined, hcheck⟩ := exists_of_compile h
  have hset : AllFormed own := by
    obtain ⟨s, hexec, rfl⟩ := nodeRules_eq_ok hown
    have hempty : AllFormed {} := by simp [AllFormed]
    exact formed_addLevel _ (formedMember_membersOf nodes) { issued } hempty _ _ hexec
  have hstart : AllFormed { own with start := some topStem } := hset
  exact ⟨hstart.addTypes (Catalog.form_of_rules htypes) hjoined, hcheck⟩

end Compiler

end Markup

end Covenant
