import Covenant.Proofs.Markup.Levels
import Covenant.Proofs.Source.Generated

/-!
Template rules and their source.

* `Compile.Ensures`: what holds after a step of making rules that succeeds.
* `Compiler.keeps_ruleOf`: the rules that a node adds are steady, one case for each kind of
  node.
* `Compiler.read_write_compile`: the rules of a template are read back from their source
  as they are, unless a name or a format has a line feed in it.
-/

namespace Covenant.Markup

open Source

/-! ### Steps that succeed -/

namespace Compile

variable {α β : Type}

/-- What holds after a step that succeeds, if `pre` holds before it. -/
def Ensures (pre : RuleSet → Prop) (x : Compile α) (post : RuleSet → α → Prop) : Prop :=
  ∀ s, pre s.rules → ∀ a s', x.exec s = (.ok a, s') → post s'.rules a

variable {pre : RuleSet → Prop}

theorem ensures_pure {a : α} {post : RuleSet → α → Prop} (h : ∀ s, pre s → post s a) :
    Ensures pre (pure a) post := by
  intro s hs b s' hexec
  cases hexec
  exact h _ hs

/-- Hoare's rule of sequence for the compiler's computations. -/
theorem Ensures.bind {x : Compile α} {f : α → Compile β} {mid : RuleSet → α → Prop}
    {post : RuleSet → β → Prop} (hx : Ensures pre x mid)
    (hf : ∀ a, Ensures (fun s => mid s a) (f a) post) : Ensures pre (x >>= f) post := by
  intro s hs b s' hexec
  rw [exec_bind] at hexec
  split at hexec
  · rename_i a s₁ hfirst
    exact hf a s₁ (hx s hs a s₁ hfirst) b s' hexec
  · cases hexec

/-- Hoare's rule of consequence for the compiler's computations. -/
theorem Ensures.mono {x : Compile α} {pre' : RuleSet → Prop} {post post' : RuleSet → α → Prop}
    (h : Ensures pre x post) (hpre : ∀ s, pre' s → pre s) (hpost : ∀ s a, post s a → post' s a) :
    Ensures pre' x post' :=
  fun s hs a s' hexec => hpost _ _ (h s (hpre _ hs) a s' hexec)

/-- What holds before a step, whatever the rules, may be assumed about the step. -/
theorem Ensures.assume {P : Prop} {x : Compile α} {post : RuleSet → α → Prop}
    (hpre : ∀ s, pre s → P) (h : P → Ensures pre x post) : Ensures pre x post :=
  fun s hs => h (hpre _ hs) s hs

theorem ensures_throw (f : Fault) (post : RuleSet → α → Prop) : Ensures pre (throw f) post := by
  intro s _ a s' hexec
  cases hexec

theorem ensures_ofOutcome {o : Outcome α} : Ensures pre (ofOutcome o) fun s a => pre s ∧ o = .ok a := by
  cases o with
  | error f => exact ensures_throw f _
  | ok a => exact ensures_pure fun s hs => ⟨hs, rfl⟩

/-- A condition every step keeps is kept by the walk over all of them. -/
theorem ensures_filterMapM {f : α → Compile (Option β)} {as : List α}
    (h : ∀ a ∈ as, Ensures pre (f a) fun s _ => pre s) :
    Ensures pre (as.filterMapM f) fun s _ => pre s := by
  induction as with
  | nil => exact ensures_pure fun s hs => hs
  | cons a as ih =>
    rw [List.filterMapM_cons]
    refine (h a (by simp)).bind fun b => ?_
    have hrest := ih fun b hb => h b (by simp [hb])
    cases b with
    | none => exact hrest
    | some b => exact hrest.bind fun bs => ensures_pure fun s hs => hs

end Compile

open Compile

/-- A refusal promises whatever is asked of its result. -/
theorem ensures_refuse {α : Type} {pre : RuleSet → Prop} (c : Compiler) (n : Node)
    (cause : Fault.Cause) (post : RuleSet → α → Prop) : Ensures pre (c.refuse n cause) post := by
  intro s _ a s' hexec
  obtain ⟨f, hf⟩ := c.exec_refuse (α := α) n cause s
  rw [hf] at hexec
  cases hexec

namespace Compiler

/-! ### Rules of nodes -/

/-- A set of steady rules with names of their own. -/
structure SteadySet (s : RuleSet) : Prop where
  wellFormed : s.WellFormed
  rules : ∀ r ∈ s.rules, r.Steady

/-- A steady rule with a new name leaves the set steady. -/
theorem SteadySet.append {s : RuleSet} (hs : SteadySet s) {r : Rule} (hname : r.name ∉ s.names)
    (hfilled : r.Filled) (hr : r.Steady) : SteadySet { s with rules := s.rules ++ [r] } := by
  refine ⟨hs.wellFormed.append hname hfilled, fun q hq => ?_⟩
  rcases List.mem_append.mp hq with hq | hq
  · exact hs.rules q hq
  · exact List.mem_singleton.mp hq ▸ hr

def Keeps (x : Compile Rule) : Prop :=
  Ensures SteadySet x fun s r => SteadySet s ∧ r.Steady

variable {c : Compiler} {d : SchemaType} {stem : String}

/-- Adding a steady rule keeps the set steady: a name that is taken is refused. -/
theorem ensures_addRule (n? : Option Node) {r : Rule} (hr : r.Steady) :
    Ensures SteadySet (c.addRule n? r) fun s _ => SteadySet s := by
  intro s hs a s' hexec
  unfold addRule at hexec
  rw [exec_bind] at hexec
  have hget : (get : Compile Progress).exec s = (.ok s, s) := rfl
  rw [hget] at hexec
  simp only at hexec
  cases hobstacle : s.rules.obstacle? r with
  | none =>
    rw [hobstacle] at hexec
    obtain ⟨hname, hfilled⟩ := RuleSet.obstacle_eq_none_iff.mp hobstacle
    cases hexec
    exact hs.append hname hfilled hr
  | some cause =>
    rw [hobstacle] at hexec
    cases n? with
    | none => cases hexec
    | some n => exact ensures_refuse c n _ (fun s _ => SteadySet s) s hs a s' hexec

/-- Looking a property up changes no rule. -/
theorem ensures_property {pre : RuleSet → Prop} (n : Node) (field : String) :
    Ensures pre (c.property ⟨d, stem⟩ n field) fun s p => pre s ∧ d.property? field = some p := by
  unfold property
  split
  · rename_i p hp
    exact ensures_pure fun s hs => ⟨hs, hp⟩
  · exact ensures_refuse c n _ _

theorem ensures_booleanProperty {pre : RuleSet → Prop} (n : Node) (field : String) :
    Ensures pre (c.booleanProperty ⟨d, stem⟩ n field) fun s _ => pre s := by
  unfold booleanProperty
  refine (ensures_property n field).bind fun p => ?_
  split
  · exact ensures_refuse c n _ _
  · exact ensures_pure fun s hs => hs.1

/-! ### Rules of single nodes -/

/-- The rule of a literal text is steady: its name is a name, its text is quoted. -/
theorem steady_textRule {name : String} (hname : IsName name) (body : String) :
    (textRule body name).Steady := by
  refine ⟨hname, by simp [textRule], ?_, by simp [textRule]⟩
  intro a ha x hx
  rw [List.mem_singleton.mp ha] at hx
  exact List.mem_singleton.mp hx ▸ steady_literal _ _

theorem keeps_textRule {name : String} (hname : IsName name) (body : String) :
    Keeps (pure (textRule body name)) :=
  ensures_pure fun _ hs => ⟨hs, steady_textRule hname body⟩

theorem keeps_expressionRule {name : String} (hname : IsName name) (body : String) :
    Keeps (expressionRule body name) := by
  intro s hs r s' hexec
  cases hexec
  refine ⟨⟨⟨hs.wellFormed.names, hs.wellFormed.filled⟩, hs.rules⟩, hname, by simp, ?_, ?_⟩
  · intro a ha x hx
    rw [List.mem_singleton.mp ha] at hx
    exact List.mem_singleton.mp hx ▸ steady_reference _ _
  · intro x hx
    cases hx
    have hword : IsName "expression" := by decide
    exact .inr (hword.words_ne_nil (" " ++ body))

section Node

variable {n : Node} {field name : String} (hd : d.Named) (hname : IsName name)

include hd

/-- The comment of the rule of a field begins with the name of the level's type. -/
theorem words_comment (rest : String) : Text.words (comment ⟨d, stem⟩ field ++ rest) ≠ [] := by
  have happend : comment ⟨d, stem⟩ field ++ rest = d.fqn ++ ("." ++ field ++ rest) := by
    simp [comment, String.append_assoc]
  exact happend ▸ hd.fqn.words_ne_nil _

include hname

/-- A rule for a field that has no patterns. -/
theorem steady_of_field {alternatives : List (List Symbol)} {action : Option Action}
    {rest : String} (hkinds : ∀ a ∈ alternatives, ∀ x ∈ a, x.kind ≠ .pattern)
    (haction : ∀ a, action = some a → IsName a.name ∧ ∀ p ∈ a.params, IsName p.key) :
    Rule.Steady { name, alternatives, action, comment := some (comment ⟨d, stem⟩ field ++ rest) } := by
  refine ⟨hname, haction, fun a ha x hx hpattern => absurd hpattern (hkinds a ha x hx), ?_⟩
  intro x hx
  exact Option.some.inj hx ▸ .inr (words_comment hd rest)

/-- A rule of literals for a field, with an action that asks for a constant at most. -/
theorem steady_of_choice {alternatives : List (List Symbol)} {action : Action}
    (hliterals : ∀ a ∈ alternatives, ∀ x ∈ a, x.kind = .literal) (haction : IsName action.name)
    (hkeys : ∀ p ∈ action.params, p.key = "value") :
    Rule.Steady { name, alternatives, action := some action
                  comment := some (comment ⟨d, stem⟩ field) } := by
  rw [← String.append_empty (s := comment ⟨d, stem⟩ field)]
  refine steady_of_field hd hname (fun a ha x hx h => ?_) fun a ha => ?_
  · cases h.symm.trans (hliterals a ha x hx)
  · cases ha
    have hvalue : IsName "value" := by decide
    exact ⟨haction, fun p hp => hkeys p hp ▸ hvalue⟩

theorem keeps_shownRule (whenTrue : String) :
    Keeps (c.shownRule n field whenTrue ⟨d, stem⟩ name) := by
  unfold shownRule
  refine (ensures_booleanProperty n field).bind fun _ => ?_
  split
  · exact (ensures_refuse c n _ fun s _ => SteadySet s).bind fun _ => ensures_pure fun s hs =>
      ⟨hs, steady_of_choice hd hname (by simp [Symbol.literal]) (by decide) (by simp)⟩
  · exact ensures_pure fun s hs =>
      ⟨hs, steady_of_choice hd hname (by simp [Symbol.literal]) (by decide) (by simp)⟩

theorem keeps_choiceRule (whenTrue whenFalse : String) :
    Keeps (c.choiceRule n field whenTrue whenFalse ⟨d, stem⟩ name) := by
  unfold choiceRule
  refine (ensures_booleanProperty n field).bind fun _ => ?_
  split
  rename_i alternatives action hchoice
  have hchosen : (∀ a ∈ alternatives, ∀ x ∈ a, x.kind = .literal) ∧ IsName action.name ∧
      ∀ p ∈ action.params, p.key = "value" := by
    have hnames : IsName "present" ∧ IsName "absent" ∧ IsName "equals" := by decide
    split at hchoice
    · cases hchoice
      exact ⟨by simp [Symbol.literal], hnames.1, by simp⟩
    · split at hchoice <;> cases hchoice
      · exact ⟨by simp [Symbol.literal], hnames.2.1, by simp⟩
      · exact ⟨by simp [Symbol.literal], hnames.2.2, by simp⟩
  obtain ⟨hliterals, haction, hkeys⟩ := hchosen
  split
  · exact (ensures_refuse c n _ fun s _ => SteadySet s).bind fun _ => ensures_pure fun s hs =>
      ⟨hs, steady_of_choice hd hname hliterals haction hkeys⟩
  · exact ensures_pure fun s hs => ⟨hs, steady_of_choice hd hname hliterals haction hkeys⟩

omit hd hname in
/-- The rule of a format is added as the format has it. -/
theorem ensures_formatTarget {p : Property} {format : String}
    (hformat : ∀ k, Formatted.ofType? p.type = some k → ¬ k.BreaksLine format) :
    Ensures SteadySet (c.formatTarget n p format) fun s _ => SteadySet s := by
  unfold formatTarget
  split
  · exact ensures_refuse c n _ _
  · rename_i k hk
    have hkind : Formatted.ofType? p.type = some k := by
      split at hk
      · cases hk
      · exact hk
    split
    · exact ensures_refuse c n _ _
    · rename_i r hr
      intro s hs x s' hexec
      cases hexec
      change SteadySet (if s.rules.has r.name then s
        else { s with rules := { s.rules with rules := s.rules.rules ++ [r] } } : Progress).rules
      split
      · exact hs
      · rename_i hname
        exact hs.append (fun hmem => hname (RuleSet.has_iff.mpr hmem))
          ((Formatted.rule_spec hr).2.2 fun _ => True).filled (Formatted.steady_rule (hformat k hkind) hr)

/-- A binding's rule is steady if the rule of its format breaks no line. -/
theorem keeps_bindingRule {format : Option String}
    (hformat : ∀ f ∈ format, ∀ x ∈ boundFormat d field f, ¬ x.1.BreaksLine x.2) :
    Keeps (c.bindingRule n field format ⟨d, stem⟩ name) := by
  unfold bindingRule
  refine (ensures_property n field).bind fun p => Ensures.assume (fun s hs => hs.2) fun hp => ?_
  have hrest : ∀ target, Ensures SteadySet (pure
      { name, alternatives := [[.rule target p.cardinality]]
        comment := some (comment ⟨d, stem⟩ field) } : Compile Rule)
      fun s r => SteadySet s ∧ r.Steady := by
    intro target
    refine ensures_pure fun s hs => ⟨hs, ?_⟩
    rw [← String.append_empty (s := comment ⟨d, stem⟩ field)]
    exact steady_of_field hd hname (by simp [Symbol.rule]) (by simp)
  cases format with
  | none => exact (ensures_pure fun s hs => hs.1).bind hrest
  | some f =>
    refine ((ensures_formatTarget fun k hk => ?_).mono (fun s hs => hs.1) fun s _ h => h).bind
      hrest
    refine hformat f rfl (k, f) ?_
    simp [boundFormat, hp, hk]

end Node

/-! ### Levels -/

/-- A member whose rule is steady wherever the member stands in levels of the type. -/
def KeptMember (d : SchemaType) (m : Member) : Prop :=
  ∀ stem name, IsName name → Keeps (m.rule ⟨d, stem⟩ name)

/-- A member's rule is added under the level's stem, which is a name. -/
theorem ensures_addMember (hstem : IsName stem) {m : Member} (hm : KeptMember d m) (i : Nat) :
    Ensures SteadySet (c.addMember ⟨d, stem⟩ m i) fun s _ => SteadySet s := by
  unfold addMember
  split
  · exact ensures_pure fun s hs => hs
  · refine (hm stem _ (hstem.append_toString i)).bind fun r => ?_
    refine Ensures.assume (fun s hs => hs.2) fun hr => ?_
    exact ((ensures_addRule _ hr).mono (fun s hs => hs.1) fun s _ h => h).bind fun _ =>
      ensures_pure fun s hs => hs

/-- The keys of a level's arguments are names of the model's properties. -/
theorem ensures_levelParams (hd : d.Named) (bound : List (String × String)) :
    Ensures SteadySet (c.levelParams d bound) fun s ps =>
      SteadySet s ∧ ∀ p ∈ ps, IsName p.key := by
  have hclass : IsName classKey := by decide
  have hbound : ∀ p ∈ d.properties.filterMap fun p =>
      if d.identifier? = some p.name then none
      else (bound.lookup p.name).map fun name => (⟨p.name, .ref name⟩ : ActionParam),
      IsName p.key := by
    intro p hp
    obtain ⟨q, hq, hp⟩ := List.mem_filterMap.mp hp
    split at hp
    · cases hp
    · obtain ⟨name, _, rfl⟩ := Option.map_eq_some_iff.mp hp
      exact hd.properties q hq
  unfold levelParams
  split
  · rename_i key hkey
    have hidentifier : IsName key := by
      obtain ⟨q, hq, rfl⟩ := Option.map_eq_some_iff.mp hkey
      exact hd.properties q (List.mem_of_find?_eq_some hq)
    have hissue : Ensures SteadySet c.issue fun s _ => SteadySet s := by
      intro s hs a s' hexec
      cases hexec
      exact hs
    refine hissue.bind fun id => ?_
    rw [pure_bind]
    refine ensures_pure fun s hs => ⟨hs, ?_⟩
    simp only [List.cons_append, List.nil_append, List.forall_mem_cons]
    exact ⟨hclass, hidentifier, hbound⟩
  · refine ensures_pure fun s hs => ⟨hs, ?_⟩
    simp only [List.cons_append, List.nil_append, List.forall_mem_cons]
    exact ⟨hclass, hbound⟩

/-- **A level of kept members** adds steady rules. -/
theorem ensures_addLevel (hd : d.Named) (hstem : IsName stem) {ms : List Member}
    (hms : ∀ m ∈ ms, KeptMember d m) :
    Ensures SteadySet (c.addLevel ⟨d, stem⟩ ms) fun s _ => SteadySet s := by
  unfold addLevel
  have hmembers : Ensures SteadySet
      (ms.zipIdx.filterMapM fun e => c.addMember ⟨d, stem⟩ e.1 e.2) fun s _ => SteadySet s :=
    ensures_filterMapM fun e he =>
      ensures_addMember hstem (hms e.1 (List.fst_mem_of_mem_zipIdx he)) e.2
  refine hmembers.bind fun parts => ?_
  have hrest : Ensures SteadySet (do
      let params ← c.levelParams d (parts.filterMap fun e => e.2.map (·, e.1))
      c.addRule none
        { name := stem, alternatives := [parts.map fun e => .rule e.1]
          action := some ⟨"object", params⟩, comment := some d.fqn }) fun s _ => SteadySet s := by
    refine (ensures_levelParams hd _).bind fun params => ?_
    refine Ensures.assume (fun s hs => hs.2) fun hparams => ?_
    refine (ensures_addRule none ⟨hstem, ?_, ?_, ?_⟩).mono (fun s hs => hs.1) fun s _ h => h
    · intro a ha
      cases ha
      have hobject : IsName "object" := by decide
      exact ⟨hobject, hparams⟩
    · intro a ha x hx
      rw [List.mem_singleton.mp ha] at hx
      obtain ⟨e, _, rfl⟩ := List.mem_map.mp hx
      exact steady_reference _ _
    · intro x hx
      cases hx
      have hwords := hd.fqn.words_ne_nil ""
      rw [String.append_empty] at hwords
      exact .inr hwords
  split
  · exact (ensures_throw _ fun s _ => SteadySet s).bind fun _ => hrest
  · exact hrest

/-! ### Blocks -/

theorem keptMember_textMember (n : Node) : KeptMember d (textMember n) := by
  intro stem name hname
  unfold textMember
  split <;> exact keeps_textRule hname _

/-- A leading line feed leaves every member's rule steady. -/
theorem keptMember_lead {ms : List Member} (hms : ∀ m ∈ ms, KeptMember d m) {start : String}
    {led : List Member} (h : leadMembers Member.node textMember start ms = .ok led) :
    ∀ m ∈ led, KeptMember d m := by
  unfold leadMembers at h
  split at h
  · cases h
    exact hms
  · split at h
    · cases h
      exact List.forall_mem_singleton.mpr (keptMember_textMember _)
    · obtain ⟨hfirst, hrest⟩ := List.forall_mem_cons.mp hms
      split at h
      · cases h
        exact List.forall_mem_cons.mpr ⟨keptMember_textMember _, hrest⟩
      · split at h
        · cases h
          exact List.forall_mem_cons.mpr ⟨keptMember_textMember _, hms⟩
        · cases h

/-- A level as a whole keeps the set steady. -/
theorem ensures_addLedLevel (hd : d.Named) (hstem : IsName stem) {ms : List Member}
    (hms : ∀ m ∈ ms, KeptMember d m) (start : String) :
    Ensures SteadySet (c.addLedLevel ⟨d, stem⟩ start ms) fun s _ => SteadySet s :=
  ensures_ofOutcome.bind fun _ => Ensures.assume (fun _ hs => hs.2) fun hled =>
    (ensures_addLevel hd hstem (keptMember_lead hms hled)).mono (fun _ hs => hs.1) fun _ _ h => h

/-- The type that a block lays out is a type of the catalog. -/
theorem ensures_blockType {pre : RuleSet → Prop} (n : Node) (kind : BlockKind) (p : Property) :
    Ensures pre (c.blockType n kind p) fun s e =>
      pre s ∧ c.catalog.types.find? p.type = some e := by
  unfold blockType
  have hrest : Ensures pre (do
      let e ← ofOutcome (c.catalog.get p.type)
      if e.isEnum || e.abstract then
        c.refuse n (.structural (.notConcrete kind.keyword p.name p.typeName))
      return e) fun s e => pre s ∧ c.catalog.types.find? p.type = some e := by
    refine ensures_ofOutcome.bind fun e => Ensures.assume (fun s hs => hs.2) fun he => ?_
    have hfind : c.catalog.types.find? p.type = some e := by
      unfold Catalog.get at he
      split at he
      · cases he
        assumption
      · cases he
    split
    · exact (ensures_refuse c n _ fun s _ => pre s).bind fun _ =>
        ensures_pure fun s hs => ⟨hs, hfind⟩
    · exact ensures_pure fun s hs => ⟨hs.1, hfind⟩
  split
  · exact (ensures_refuse c n _ fun s _ => pre s).bind fun _ => hrest
  · exact hrest

section Block

variable {n : Node} {field name : String} {ms : List Member} (hd : d.Named) (hname : IsName name)
  (htypes : ∀ e ∈ c.catalog.types, e.2.Named)
  (hms : ∀ p e, d.property? field = some p → c.catalog.types.find? p.type = some e →
    ∀ m ∈ ms, KeptMember e m)

include hd in
/-- A property that was found has a name the model reader accepts. -/
theorem isName_field {p : Property} (hp : d.property? field = some p) : IsName field := by
  have hfield : p.name = field := by simpa using List.find?_some hp
  exact hfield ▸ hd.properties p (mem_of_property hp)

include hd hname htypes hms

theorem keeps_nestedRule (kind : BlockKind) :
    Keeps (c.nestedRule n kind field ms ⟨d, stem⟩ name) := by
  unfold nestedRule
  refine (ensures_property n field).bind fun p => Ensures.assume (fun s hs => hs.2) fun hp => ?_
  refine ((ensures_blockType n kind p).mono (fun s hs => hs.1) fun s _ h => h).bind fun e =>
    Ensures.assume (fun s hs => hs.2) fun he => ?_
  have hlevel : Ensures SteadySet (c.addLevel ⟨e, field⟩ ms) fun s _ => SteadySet s :=
    ensures_addLevel (htypes _ (Table.mem_of_find he)) (isName_field hd hp) (hms p e hp he)
  refine (hlevel.mono (fun s hs => hs.1) fun s _ h => h).bind fun _ =>
    ensures_pure fun s hs => ⟨hs, ?_⟩
  rw [String.append_assoc, String.append_assoc]
  exact steady_of_field hd hname (by simp [Symbol.rule]) (by simp)

theorem keeps_listRule (style : ListStyle) :
    Keeps (c.listRule n style field ms ⟨d, stem⟩ name) := by
  unfold listRule
  refine (ensures_property n field).bind fun p => Ensures.assume (fun s hs => hs.2) fun hp => ?_
  have hrest : Ensures SteadySet (do
      let e ← c.blockType n (.list style) p
      let firstStem := field ++ "First"
      c.addLedLevel ⟨e, firstStem⟩ (style.leads c.settings).1 ms
      c.addLedLevel ⟨e, field⟩ (style.leads c.settings).2 ms
      return { name, alternatives := [[.rule firstStem, .rule field .many]]
               action := some ⟨"concat", [⟨"first", .ref firstStem⟩, ⟨"rest", .ref field⟩]⟩
               comment := some (comment ⟨d, stem⟩ field) } : Compile Rule)
      fun s r => SteadySet s ∧ r.Steady := by
    refine (ensures_blockType n _ p).bind fun e => Ensures.assume (fun s hs => hs.2) fun he => ?_
    have hfield := isName_field hd hp
    have hfirst : IsName (field ++ "First") :=
      hfield.append (show IsName "First" by decide).isNamePart
    have hled : ∀ {stem}, IsName stem → ∀ start,
        Ensures SteadySet (c.addLedLevel ⟨e, stem⟩ start ms) fun s _ => SteadySet s :=
      fun hstem => ensures_addLedLevel (htypes _ (Table.mem_of_find he)) hstem (hms p e hp he)
    refine ((hled hfirst _).mono (fun s hs => hs.1) fun s _ h => h).bind fun _ =>
      (hled hfield _).bind fun _ => ensures_pure fun s hs => ⟨hs, ?_⟩
    rw [← String.append_empty (s := comment ⟨d, stem⟩ field)]
    refine steady_of_field hd hname (by simp [Symbol.rule]) fun a ha => ?_
    cases ha
    have hnames : IsName "concat" ∧ IsName "first" ∧ IsName "rest" := by decide
    refine ⟨hnames.1, fun q hq => ?_⟩
    rcases List.mem_pair.mp hq with rfl | rfl
    · exact hnames.2.1
    · exact hnames.2.2
  by_cases harray : p.array = true
  · rw [if_pos harray]
    exact hrest.mono (fun s hs => hs.1) fun s _ h => h
  · rw [if_neg harray]
    exact (ensures_refuse c n _ fun s _ => SteadySet s).bind fun _ => hrest

end Block

/-! ### Nodes -/

mutual

/-- **The rule of a node is steady**, and so are those that are added for it, unless one of
its formats separates digits by a line feed. -/
theorem keeps_ruleOf (htypes : ∀ e ∈ c.catalog.types, e.2.Named) :
    ∀ (n : Node) (d : SchemaType), d.Named → (∀ x ∈ c.formatsOf n d, ¬ x.1.BreaksLine x.2) →
    ∀ stem name, IsName name → Keeps (c.ruleOf n ⟨d, stem⟩ name)
  | .text body _ _, _, _, _, _, _, hname => keeps_textRule hname body
  | .expression body _, _, _, _, _, _, hname => keeps_expressionRule hname body
  | .shown _ whenTrue _, _, hd, _, _, _, hname => by
    rw [ruleOf]
    exact keeps_shownRule hd hname whenTrue
  | .choice _ whenTrue whenFalse _, _, hd, _, _, _, hname => by
    rw [ruleOf]
    exact keeps_choiceRule hd hname whenTrue whenFalse
  | .binding _ none _, _, hd, _, _, _, hname => by
    rw [ruleOf]
    refine keeps_bindingRule hd hname fun f hf => ?_
    cases hf
  | .binding _ (some _) _, _, hd, hformats, _, _, hname => by
    rw [ruleOf]
    refine keeps_bindingRule hd hname fun f hf => ?_
    cases hf
    exact hformats
  | .formatted _ _ _, _, hd, hformats, _, _, hname => by
    rw [ruleOf]
    refine keeps_bindingRule hd hname fun f hf => ?_
    cases hf
    exact hformats
  | .foreign kind field line column, _, _, _, _, _, _ => by
    rw [ruleOf]
    exact ensures_refuse c _ _ _
  | .block kind field nested place, d, hd, hformats, _, _, hname => by
    have hnested : ∀ p e, d.property? field = some p → c.catalog.types.find? p.type = some e →
        ∀ m ∈ c.membersOf nested, KeptMember e m := by
      intro p e hp he
      refine keptMember_membersOf htypes nested e (htypes _ (Table.mem_of_find he)) fun x hx => ?_
      refine hformats x ?_
      rw [formatsOf]
      simpa [hp, he] using hx
    cases kind with
    | clause => exact keeps_nestedRule hd hname htypes hnested .clause
    | within => exact keeps_nestedRule hd hname htypes hnested .within
    | list style => exact keeps_listRule hd hname htypes hnested style

/-- Every member of a compiled level makes steady rules, by induction on the nodes. -/
theorem keptMember_membersOf (htypes : ∀ e ∈ c.catalog.types, e.2.Named) :
    ∀ (ns : List Node) (d : SchemaType), d.Named → (∀ x ∈ c.formats ns d, ¬ x.1.BreaksLine x.2) → ∀ m ∈ c.membersOf ns, KeptMember d m
  | [], _, _, _ => by simp [membersOf]
  | n :: ns, d, hd, hformats => by
    have hsplit : ∀ x, x ∈ c.formatsOf n d ∨ x ∈ c.formats ns d → x ∈ c.formats (n :: ns) d := by
      intro x hx
      rw [formats]
      exact List.mem_append.mpr hx
    rw [membersOf]
    exact List.forall_mem_cons.mpr
      ⟨keeps_ruleOf htypes n d hd fun x hx => hformats x (hsplit x (.inl hx)),
        keptMember_membersOf htypes ns d hd fun x hx => hformats x (hsplit x (.inr hx))⟩

end

/-! ### Whole templates -/

/-- The rules of the types, added last, keep the set steady. -/
theorem SteadySet.addTypes {set set' : RuleSet} {rs : List Rule} (hset : SteadySet set)
    (hrs : ∀ r ∈ rs, r.Filled ∧ r.Steady) (h : c.addTypes set rs = .ok set') :
    SteadySet set' := by
  refine addTypes_induction (fun s r hr hfind hs => ?_) hset h
  exact hs.append (RuleSet.find_eq_none_iff.mp hfind) (hrs r hr).1 (hrs r hr).2

/-- What the nodes' own rules are when they compile. -/
theorem nodeRules_eq_ok {nodes : List Node} {issued : Nat} {own : RuleSet}
    (h : (c.nodeRules nodes d issued).1 = .ok own) :
    ∃ s, (c.addLevel ⟨d, topStem⟩ (c.membersOf nodes)).exec { issued } = (.ok (), s) ∧
      s.rules = own := by
  unfold nodeRules at h
  obtain ⟨_, ho, rfl⟩ := Outcome.map_eq_ok.mp h
  exact ⟨_, Prod.ext ho rfl, rfl⟩

/-- **The rules of a template are steady** if no name in the files has a line feed, and no
format of the template separates digits by one. -/
theorem steadySet_compile (hc : c.catalog.Built) (hlines : ∀ f ∈ c.catalog.files, f.model.OneLine)
    (hd : c.catalog.types.find? d.fqn = some d) {nodes : List Node}
    (hformats : ∀ x ∈ c.formats nodes d, ¬ x.1.BreaksLine x.2) {issued : Nat} {set : RuleSet}
    (h : (c.compile nodes d issued).1 = .ok set) : SteadySet set ∧ set.check = .ok () := by
  obtain ⟨own, types, hown, htypes, hjoined, hcheck⟩ := exists_of_compile h
  have hnamed := hc.named_types hlines
  have hlevel : Ensures SteadySet (c.addLevel ⟨d, topStem⟩ (c.membersOf nodes))
      fun s _ => SteadySet s :=
    ensures_addLevel (hnamed _ (Table.mem_of_find hd)) (by decide)
      (keptMember_membersOf hnamed nodes d (hnamed _ (Table.mem_of_find hd)) hformats)
  have hempty : SteadySet {} := ⟨RuleSet.wellFormed_empty, by simp⟩
  have hset : SteadySet own := by
    obtain ⟨s, hexec, rfl⟩ := nodeRules_eq_ok hown
    exact hlevel { issued } hempty _ _ hexec
  have hstart : SteadySet { own with start := some topStem } :=
    ⟨⟨hset.wellFormed.names, hset.wellFormed.filled⟩, hset.rules⟩
  refine ⟨hstart.addTypes (fun r hr => ⟨?_, ?_⟩) hjoined, hcheck⟩
  · exact (Catalog.mem_rules htypes).1.filled r hr
  · exact Catalog.steady_rules hc hlines htypes r hr

/-- **The rules of a template are read back from their source as they are.** -/
theorem read_write_compile (hc : c.catalog.Built)
    (hlines : ∀ f ∈ c.catalog.files, f.model.OneLine)
    (hd : c.catalog.types.find? d.fqn = some d) {nodes : List Node}
    (hformats : ∀ x ∈ c.formats nodes d, ¬ x.1.BreaksLine x.2) {issued : Nat} {set : RuleSet}
    (h : (c.compile nodes d issued).1 = .ok set) : ∃ source, set.write = .ok source ∧
      ∀ file, ∃ t, RuleSet.read source file = .ok t ∧ t.Same set ∧ t.check = .ok () := by
  obtain ⟨hset, hcheck⟩ := steadySet_compile hc hlines hd hformats h
  exact RuleSet.read_write_steady hset.wellFormed hset.rules hcheck

end Compiler

end Covenant.Markup
