import Covenant.Proofs.Markup.Emission

/-!
What the steps of making a template's rules add.

* `Fits`, `WellTyped`: nodes and levels that fit a type.
* `Emits`: a step adds its emissions if their names are free, and fails otherwise.
* `emits_ruleOf`, `emits_addLevel`: the steps of fitting nodes and of well-typed levels.
-/

namespace Covenant.Markup

/-! ### Fitting nodes -/

def Formats (p : Property) (format : String) : Prop :=
  p.relationship = false ∧ ∃ k, Formatted.ofType? p.type = some k ∧ ∃ r, k.rule format = .ok r

/-- **Nodes that fit the type of their level.** Every field is declared; truth values
decide between texts that differ; formats can be read and suit the property; and blocks
lay out values of a declared type that is neither an enumeration nor abstract. -/
inductive Fits (c : Catalog) : SchemaType → Node → Prop where
  | text {d : SchemaType} {body : String} {last : Bool} {place : Text.Position} :
      Fits c d (.text body last place)
  | expression {d : SchemaType} {body : String} {place : Text.Position} :
      Fits c d (.expression body place)
  | plain {d : SchemaType} {field : String} {place : Text.Position} {p : Property}
      (hp : d.property? field = some p) : Fits c d (.binding field none place)
  | binding {d : SchemaType} {field format : String} {place : Text.Position} {p : Property}
      (hp : d.property? field = some p) (hformat : Formats p format) :
      Fits c d (.binding field (some format) place)
  | formatted {d : SchemaType} {field format : String} {place : Text.Position} {p : Property}
      (hp : d.property? field = some p) (hformat : Formats p format) :
      Fits c d (.formatted field format place)
  | shown {d : SchemaType} {field whenTrue : String} {place : Text.Position} {p : Property}
      (hp : d.property? field = some p) (hboolean : p.type = "Boolean") (harray : p.array = false)
      (htext : whenTrue ≠ "") : Fits c d (.shown field whenTrue place)
  | choice {d : SchemaType} {field whenTrue whenFalse : String} {place : Text.Position}
      {p : Property} (hp : d.property? field = some p) (hboolean : p.type = "Boolean")
      (harray : p.array = false) (htexts : whenTrue ≠ whenFalse) :
      Fits c d (.choice field whenTrue whenFalse place)
  | block {d e : SchemaType} {kind : BlockKind} {field : String} {nested : List Node}
      {place : Text.Position} {p : Property} (hp : d.property? field = some p)
      (hprimitive : p.isPrimitive = false) (hrelationship : p.relationship = false)
      (he : c.types.find? p.type = some e) (henum : e.isEnum = false)
      (habstract : e.abstract = false) (harray : ∀ style, kind = .list style → p.array = true)
      (hfilled : ∃ n ∈ nested, n.silent = false) (hnested : ∀ n ∈ nested, Fits c e n) :
      Fits c d (.block kind field nested place)

/-- A level that has something to say, and whose nodes fit its type. -/
structure WellTyped (c : Catalog) (d : SchemaType) (nodes : List Node) : Prop where
  filled : ∃ n ∈ nodes, n.silent = false
  fits : ∀ n ∈ nodes, Fits c d n

/-! ### Steps -/

namespace Compile

variable {α β : Type}

/-- The result of a step and the progress it leaves behind. -/
def exec (x : Compile α) (s : Progress) : Except Fault α × Progress :=
  StateT.run (ExceptT.run x) s

@[simp] theorem exec_pure (a : α) (s : Progress) : exec (pure a) s = (.ok a, s) := rfl

@[simp] theorem exec_throw (f : Fault) (s : Progress) :
    exec (throw f : Compile α) s = (.error f, s) := rfl

theorem exec_bind (x : Compile α) (f : α → Compile β) (s : Progress) :
    exec (x >>= f) s =
      match exec x s with
      | (.ok a, s) => exec (f a) s
      | (.error e, s) => (.error e, s) := by
  simp only [exec, bind, ExceptT.bind, ExceptT.run, ExceptT.mk, StateT.run, StateT.bind]
  obtain ⟨o, s'⟩ := (x : Progress → Except Fault α × Progress) s
  cases o <;> rfl

@[simp] theorem exec_ofOutcome_ok (a : α) (s : Progress) :
    exec (ofOutcome (.ok a)) s = (.ok a, s) := rfl

end Compile

/-- What adding rules does: names grow by the emissions, every new rule refers to names
that are there or known, and the template's own rules are those with names of their
own. -/
structure Grown (known : String → Prop) (es : List Emission) (s s' : RuleSet) : Prop where
  names : absorb s.names es = some s'.names
  rules : ∃ new, s'.rules = s.rules ++ new ∧
    (∀ r ∈ new, r.Closed (fun x => x ∈ s'.names ∨ known x) ∧
      (r.origin = .template → .own r.name ∈ es)) ∧
    ∀ x, .own x ∈ es → ∃ r ∈ new, r.name = x ∧ r.origin = .template

/-- **A step adds its emissions** if their names are free and fails otherwise. `pre` holds
of the names before it, and `post` of those after it and of the result. -/
def Emits {α : Type} (known : String → Prop) (pre : List String → Prop) (x : Compile α)
    (es : List Emission) (post : List String → α → Prop) : Prop :=
  ∀ s : Progress, pre s.rules.names →
    match x.exec s with
    | (.ok a, s') => Grown known es s.rules s'.rules ∧ post s'.rules.names a
    | (.error _, _) => absorb s.rules.names es = none

theorem Grown.refl (known : String → Prop) (s : RuleSet) : Grown known [] s s :=
  ⟨rfl, [], by simp⟩

theorem Grown.trans {known : String → Prop} {es es' : List Emission} {s t u : RuleSet}
    (h : Grown known es s t) (h' : Grown known es' t u) : Grown known (es ++ es') s u := by
  obtain ⟨new, hnew, hall, hown⟩ := h.rules
  obtain ⟨new', hnew', hall', hown'⟩ := h'.rules
  refine ⟨by rw [absorb_append, h.names]; exact h'.names, new ++ new', ?_, ?_, ?_⟩
  · rw [hnew', hnew, List.append_assoc]
  · have hsub := absorb_subset h'.names
    intro r hr
    rcases List.mem_append.mp hr with hr | hr
    · obtain ⟨hclosed, horigin⟩ := hall r hr
      exact ⟨hclosed.mono fun x hx => hx.imp_left fun hx => hsub hx,
        fun h => List.mem_append_left _ (horigin h)⟩
    · obtain ⟨hclosed, horigin⟩ := hall' r hr
      exact ⟨hclosed, fun h => List.mem_append_right _ (horigin h)⟩
  · intro x hx
    rcases List.mem_append.mp hx with hx | hx
    · obtain ⟨r, hr, hname⟩ := hown x hx
      exact ⟨r, List.mem_append_left _ hr, hname⟩
    · obtain ⟨r, hr, hname⟩ := hown' x hx
      exact ⟨r, List.mem_append_right _ hr, hname⟩

section Emits

variable {α β : Type} {known : String → Prop} {pre : List String → Prop}

theorem emits_pure {a : α} {post : List String → α → Prop} (h : ∀ ns, pre ns → post ns a) :
    Emits known pre (pure a) [] post :=
  fun s hs => ⟨Grown.refl known s.rules, h _ hs⟩

/-- **Steps one after the other** add their emissions one after the other. -/
theorem Emits.bind {x : Compile α} {f : α → Compile β} {es es' : List Emission}
    {mid : List String → α → Prop} {post : List String → β → Prop}
    (hx : Emits known pre x es mid)
    (hf : ∀ a, Emits known (fun ns => mid ns a) (f a) es' post) :
    Emits known pre (x >>= f) (es ++ es') post := by
  intro s hs
  have hx := hx s hs
  rw [Compile.exec_bind]
  cases hexec : x.exec s with
  | mk o s₁ =>
    rw [hexec] at hx
    cases o with
    | error e =>
      simp only at hx ⊢
      rw [absorb_append, hx]
      rfl
    | ok a =>
      obtain ⟨hgrown, hmid⟩ := hx
      have hf := hf a s₁ hmid
      simp only
      cases hexec' : (f a).exec s₁ with
      | mk o' s₂ =>
        rw [hexec'] at hf
        cases o' with
        | error e =>
          simp only at hf ⊢
          rw [absorb_append, hgrown.names]
          exact hf
        | ok b => exact ⟨hgrown.trans hf.1, hf.2⟩

/-- What is made of a step's result. -/
theorem Emits.map {x : Compile α} {g : α → β} {es : List Emission}
    {mid : List String → α → Prop} {post : List String → β → Prop} (hx : Emits known pre x es mid)
    (hg : ∀ ns a, mid ns a → post ns (g a)) :
    Emits known pre (x >>= fun a => pure (g a)) es post := by
  rw [← List.append_nil es]
  exact hx.bind fun a => emits_pure fun ns => hg ns a

theorem Emits.weaken {x : Compile α} {es : List Emission} {pre' : List String → Prop}
    {post post' : List String → α → Prop} (h : Emits known pre x es post)
    (hpre : ∀ ns, pre' ns → pre ns) (hpost : ∀ ns a, post ns a → post' ns a) :
    Emits known pre' x es post' := by
  intro s hs
  have h := h s (hpre _ hs)
  split at h
  · exact ⟨h.1, hpost _ _ h.2⟩
  · exact h

/-- What holds before a step, whatever the names, may be assumed about the step. -/
theorem Emits.assume {P : Prop} {x : Compile α} {es : List Emission}
    {post : List String → α → Prop} (hpre : ∀ ns, pre ns → P) (h : P → Emits known pre x es post) :
    Emits known pre x es post :=
  fun s hs => h (hpre _ hs) s hs

/-- What holds of the names before a step holds of those after it, if more names do not
spoil it. -/
theorem Emits.frame {x : Compile α} {es : List Emission} {post : List String → α → Prop}
    (h : Emits known pre x es post) (frame : List String → Prop)
    (hframe : ∀ ns ns', ns ⊆ ns' → frame ns → frame ns') :
    Emits known (fun ns => pre ns ∧ frame ns) x es fun ns a => post ns a ∧ frame ns := by
  intro s hs
  have h := h s hs.1
  split at h
  · exact ⟨h.1, h.2, hframe _ _ (absorb_subset h.1.names) hs.2⟩
  · exact h

end Emits

namespace Compiler

variable {c : Compiler} {n : Node} {d : SchemaType} {stem field : String} {p : Property}
  {known : String → Prop} {pre : List String → Prop}

/-! ### Adding rules -/

theorem exec_refuse {α : Type} (c : Compiler) (n : Node) (cause : Fault.Cause) (s : Progress) :
    ∃ f, (c.refuse n cause : Compile α).exec s = (.error f, s) := by
  unfold refuse
  cases n.span with
  | error f => exact ⟨f, rfl⟩
  | ok span => exact ⟨_, rfl⟩

/-- **Adding a rule** of the template. -/
theorem emits_addRule (c : Compiler) (n? : Option Node) {r : Rule}
    (horigin : r.origin = .template) :
    Emits known (fun ns => r.Closed fun x => x ∈ ns ∨ known x) (c.addRule n? r) [.own r.name]
      fun ns _ => r.name ∈ ns := by
  intro s hclosed
  unfold addRule
  rw [Compile.exec_bind]
  have hget : (get : Compile Progress).exec s = (.ok s, s) := rfl
  rw [hget]
  simp only
  cases hobstacle : s.rules.obstacle? r with
  | none =>
    obtain ⟨hname, hfilled⟩ := RuleSet.obstacle_eq_none_iff.mp hobstacle
    have hnames : RuleSet.names { s.rules with rules := s.rules.rules ++ [r] }
        = s.rules.names ++ [r.name] := by
      simp [RuleSet.names]
    refine ⟨⟨?_, [r], rfl, ?_, ?_⟩, ?_⟩
    · rw [absorb, if_neg hname, absorb, hnames]
    · intro q hq
      rw [List.mem_singleton.mp hq]
      refine ⟨hclosed.mono fun x hx => hx.imp_left fun hx => ?_, fun _ => by simp⟩
      rw [hnames]
      simp [hx]
    · intro x hx
      cases List.mem_singleton.mp hx
      exact ⟨r, by simp, rfl, horigin⟩
    · rw [hnames]
      simp
  | some cause =>
    have hname : r.name ∈ s.rules.names := by
      by_contra hname
      rw [RuleSet.obstacle_eq_none_iff.mpr ⟨hname, hclosed.filled⟩] at hobstacle
      cases hobstacle
    have htaken : absorb s.rules.names [.own r.name] = none := by
      rw [absorb, if_pos hname]
    cases n? with
    | none => exact htaken
    | some n =>
      obtain ⟨f, hf⟩ := c.exec_refuse (α := Unit) n (.structural (.rule cause)) s
      simp only [hf]
      exact htaken

/-- What is promised of the rule of a node: its name, and that it is a closed rule of the
template. -/
structure RuleFor (known : String → Prop) (name : String) (ns : List String) (r : Rule) : Prop where
  name : r.name = name
  origin : r.origin = .template
  closed : r.Closed fun x => x ∈ ns ∨ known x

/-- A rule of literals whose action asks for nothing. -/
theorem closed_of_literals {r : Rule} (hfilled : r.Filled)
    (hliterals : ∀ a ∈ r.alternatives, ∀ s ∈ a, s.kind = .literal)
    (hsources : ∀ a, r.action = some a → ∀ p ∈ a.params, ∃ t, p.source = .const t)
    (known : String → Prop) : r.Closed known := by
  refine ⟨hfilled, ?_, ?_⟩
  · intro x hx
    obtain ⟨a, ha, s, hs, hk, _⟩ := Rule.mem_references.mp hx
    rw [hliterals a ha s hs] at hk
    cases hk
  · intro a ha p hp
    obtain ⟨t, ht⟩ := hsources a ha p hp
    rw [ht]
    rfl

/-! ### Rules of single nodes -/

theorem emits_textRule (body name : String) :
    Emits known pre (pure (textRule body name)) [] (RuleFor known name) := by
  refine emits_pure fun ns _ => ⟨rfl, rfl, closed_of_literals ?_ ?_ ?_ _⟩
  · exact ⟨by simp [textRule], by simp [textRule]⟩
  · simp [textRule, Symbol.literal]
  · intro a ha
    cases ha

theorem property_eq (hp : d.property? field = some p) : c.property ⟨d, stem⟩ n field = pure p := by
  rw [property, hp]

theorem booleanProperty_eq (hp : d.property? field = some p) (hboolean : p.type = "Boolean")
    (harray : p.array = false) : c.booleanProperty ⟨d, stem⟩ n field = pure () := by
  rw [booleanProperty, property_eq hp, pure_bind]
  simp [hboolean, harray]

theorem emits_shownRule {whenTrue : String} (hp : d.property? field = some p)
    (hboolean : p.type = "Boolean") (harray : p.array = false) (htext : whenTrue ≠ "") (name : String) :
    Emits known pre (c.shownRule n field whenTrue ⟨d, stem⟩ name) [] (RuleFor known name) := by
  rw [shownRule, booleanProperty_eq hp hboolean harray, pure_bind]
  simp only [String.isEmpty_iff, htext, if_false]
  refine emits_pure fun ns _ => ⟨rfl, rfl, closed_of_literals ⟨by simp, by simp⟩ ?_ ?_ _⟩
  · simp [Symbol.literal]
  · intro a ha
    cases ha
    simp

theorem emits_choiceRule {whenTrue whenFalse : String} (hp : d.property? field = some p)
    (hboolean : p.type = "Boolean") (harray : p.array = false) (htexts : whenTrue ≠ whenFalse) (name : String) :
    Emits known pre (c.choiceRule n field whenTrue whenFalse ⟨d, stem⟩ name) []
      (RuleFor known name) := by
  rw [choiceRule, booleanProperty_eq hp hboolean harray, pure_bind]
  simp only [htexts, if_false]
  split
  · refine emits_pure fun ns _ => ⟨rfl, rfl, closed_of_literals ⟨by simp, by simp⟩ ?_ ?_ _⟩
    · simp [Symbol.literal]
    · intro a ha
      cases ha
      simp
  · split
    · refine emits_pure fun ns _ => ⟨rfl, rfl, closed_of_literals ⟨by simp, by simp⟩ ?_ ?_ _⟩
      · simp [Symbol.literal]
      · intro a ha
        cases ha
        simp
    · refine emits_pure fun ns _ => ⟨rfl, rfl, closed_of_literals ⟨by simp, by simp⟩ ?_ ?_ _⟩
      · simp [Symbol.literal]
      · intro a ha
        cases ha
        simp

/-- **Asking for a format** adds its rule once. -/
theorem emits_formatTarget {format : String}
    (hrelationship : p.relationship = false) {k : Formatted}
    (hk : Formatted.ofType? p.type = some k) {r : Rule} (hr : k.rule format = .ok r) :
    Emits known pre (c.formatTarget n p format) [.shared (k.ruleName format)]
      fun ns x => x ∈ ns := by
  obtain ⟨hname, horigin, hclosed⟩ := Formatted.rule_spec hr
  intro s _
  have hexec : (c.formatTarget n p format).exec s = (.ok r.name,
      if s.rules.has r.name then s
      else { s with rules := { s.rules with rules := s.rules.rules ++ [r] } }) := by
    unfold formatTarget
    rw [hrelationship, hk]
    simp only [Bool.false_eq_true, if_false, hr]
    rfl
  rw [hexec]
  simp only
  by_cases hhas : r.name ∈ s.rules.names
  · rw [if_pos (RuleSet.has_iff.mpr hhas)]
    refine ⟨⟨?_, [], by simp⟩, hhas⟩
    rw [absorb, ← hname, if_pos hhas, absorb]
  · have hnames : RuleSet.names { s.rules with rules := s.rules.rules ++ [r] }
        = s.rules.names ++ [r.name] := by
      simp [RuleSet.names]
    rw [if_neg fun h => hhas (RuleSet.has_iff.mp h)]
    refine ⟨⟨?_, [r], rfl, ?_, by simp⟩, ?_⟩
    · rw [absorb, ← hname, if_neg hhas, absorb, hnames]
    · intro q hq
      rw [List.mem_singleton.mp hq]
      refine ⟨hclosed _, fun htemplate => ?_⟩
      rw [horigin] at htemplate
      cases htemplate
    · simp only [hnames]
      simp

end Compiler

end Covenant.Markup
