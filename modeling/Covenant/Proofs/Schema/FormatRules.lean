import Covenant.Proofs.Schema.TypedRules
import Covenant.Proofs.Grammar.Derives

/-!
The rules of formats.

* `Formatted.value_of_derives`: what the rule of a format has read is the value that the
  format gives for some text.
* `Catalog.DefaultFormat`: the formats in which dates and amounts of money are read where
  no other is asked for.
* `Catalog.Built.typeFormats`: the rules that go with a type read dates and amounts of money
  in these formats, and a rule that has the name of a format is the rule of a format.
-/

namespace Covenant

/-! ### Single rules -/

namespace Formatted

theorem mem_ruleName (k : Formatted) (format : String) : '_' ∈ (k.ruleName format).toList := by
  cases k <;> exact mem_formatRuleName _ _

theorem not_dotted_ruleName (k : Formatted) (format : String) :
    '.' ∉ (k.ruleName format).toList := by
  cases k <;> exact not_dotted_formatRuleName (by decide) _

/-- The name of the rule of a format tells the type. -/
theorem kind_of_ruleName {k k' : Formatted} {format format' : String}
    (h : k.ruleName format = k'.ruleName format') : k = k' := by
  have hstart := congrArg (fun name => name.toList.take 2) h
  cases k <;> cases k' <;> first | rfl | simp [ruleName, formatRuleName] at hstart

/-- The rule of a format has a low line in its name. -/
theorem line_of_rule {k : Formatted} {format : String} {r : Rule} (h : k.rule format = .ok r) :
    '_' ∈ r.name.toList :=
  (rule_spec h).1 ▸ k.mem_ruleName format

def read (k : Formatted) (text format : String) (ctx : ReadingContext) : Outcome Value :=
  match k with
  | .date => (DateTime.read text format ctx.clock ctx.zone).map .text
  | .amount => (Amount.read text format).map .double
  | .monetary => Monetary.read text format

theorem apply_rule {k : Formatted} {format : String} {r : Rule} (h : k.rule format = .ok r)
    (ctx : ReadingContext) (alternative : List Symbol) (vs : List Value) :
    r.apply ctx alternative vs = k.read (Value.flatAll vs) format ctx := by
  cases k with
  | date =>
    obtain ⟨f, _, h⟩ := Outcome.bind_eq_ok.mp h
    cases h
    rfl
  | amount =>
    obtain ⟨f, _, h⟩ := Outcome.bind_eq_ok.mp h
    cases h
    rfl
  | monetary =>
    obtain ⟨f, _, h⟩ := Outcome.bind_eq_ok.mp h
    cases h
    rfl

/-- **What the rule of a format has read** is what some text in the format stands for. -/
theorem value_of_derives {k : Formatted} {format : String} {r : Rule} (h : k.rule format = .ok r)
    {set : RuleSet} {ctx : ReadingContext} {name : String} (hfind : set.find? name = some r)
    {cs : List Char} {e : Derivation} {v : Value} (hd : Derives set (.rule name) cs e)
    (hv : e.evaluate set ctx = .ok v) : ∃ text, k.read text format ctx = .ok v := by
  obtain ⟨q, alternative, ds, vs, rfl, _, _, _, happly⟩ := Derivation.node_of_derives hd hv hfind
  rw [apply_rule h] at happly
  exact ⟨_, happly⟩

end Formatted

namespace Catalog

/-! ### Default formats -/

/-- The formats in which dates and amounts of money are read where no other is asked for. -/
inductive DefaultFormat (s : Settings) : String → Formatted → String → Prop where
  | date : DefaultFormat s "DateTime" .date s.dateFormat
  | money : DefaultFormat s Monetary.typeName .monetary Monetary.defaultFormat

/-- A rule that passes on what the rule of a format has read. -/
def Passes (r : Rule) (k : Formatted) (format : String) : Prop :=
  r.alternatives = [[.rule (k.ruleName format)]] ∧ r.action = none

section

variable {c : Catalog} {s : Settings}

/-- Adding rules takes their names, and leaves no name free that was taken. -/
theorem names_addAll {set set' : RuleSet} {rs : List Rule} (h : set.addAll true rs = (set', none)) :
    set.names ⊆ set'.names ∧ ∀ r ∈ rs, r.name ∈ set'.names := by
  induction rs generalizing set with
  | nil =>
    cases h
    exact ⟨List.Subset.refl _, by simp⟩
  | cons q rs ih =>
    rw [RuleSet.addAll] at h
    split at h
    · rename_i htaken
      obtain ⟨hkept, hall⟩ := ih h
      have hname : q.name ∈ set.names := RuleSet.has_iff.mp (by simpa using htaken)
      exact ⟨hkept, List.forall_mem_cons.mpr ⟨hkept hname, hall⟩⟩
    · split at h
      · rename_i hadd
        obtain ⟨hkept, hall⟩ := ih h
        rw [RuleSet.names, RuleSet.rules_add hadd, List.map_append, List.append_subset] at hkept
        exact ⟨hkept.1, List.forall_mem_cons.mpr ⟨hkept.2 (by simp), hall⟩⟩
      · cases h

/-- Among the rules of primitive types one passes on what the default format of dates has read,
one is that of this format, and the others have no names of formats. -/
theorem PrimitiveRule.format_cases {r : Rule} (h : PrimitiveRule s r) : r.origin ≠ .template ∧
    (('_' ∉ r.name.toList ∧ r.name ≠ "DateTime") ∨ DateTime.rule s.dateFormat = .ok r ∨
      (r.name = "DateTime" ∧ Passes r .date s.dateFormat)) := by
  cases h with
  | @pattern T _ _ _ ht hpattern =>
    refine ⟨by simp [patternRule], .inl
      ⟨(Primitive.char_of_isName (Primitive.isName_of_mem ht)).2, fun hdate => ?_⟩⟩
    obtain rfl : T = "DateTime" := hdate
    cases Primitive.ofName_of_mem ht
    cases hpattern
  | format hw =>
    obtain ⟨-, horigin, -⟩ := DateTime.rule_spec hw
    exact ⟨by simp [horigin], .inr (.inl hw)⟩
  | date hw =>
    obtain ⟨hname, -, -⟩ := DateTime.rule_spec hw
    refine ⟨by simp, .inr (.inr ⟨rfl, ?_, rfl⟩)⟩
    rw [hname]
    rfl
  | any => exact ⟨by simp [patternRule], .inl ⟨by decide, by decide⟩⟩

/-- Dates have a rule, and so has the format they are read in. -/
theorem dateRule_mem {base : List Rule} (h : primitiveRules s = .ok base) :
    (∃ q ∈ base, q.name = "DateTime") ∧
      ∃ q ∈ base, q.name = formatRuleName "DateTime" s.dateFormat := by
  obtain ⟨dates, hdates, h⟩ := Outcome.bind_eq_ok.mp h
  have hmem : ∀ q ∈ dates, q ∈ base := by
    cases h
    exact fun q hq => List.mem_append_left _ (List.mem_append_right _ hq)
  obtain ⟨w, hw, hdates⟩ := Outcome.bind_eq_ok.mp hdates
  cases hdates
  exact ⟨⟨_, hmem _ (.tail _ (.head _)), rfl⟩, ⟨w, hmem w (.head _), (DateTime.rule_spec hw).1⟩⟩

/-- The rules of a declared type: one of its name, which for amounts of money passes on what
their default format has read, and the rule of this format. -/
theorem formats_of_rulesOf (hc : c.Built) {d : SchemaType} (hd : c.types.find? d.fqn = some d)
    {rs : List Rule} (h : c.rulesOf d = .ok rs) {r : Rule} (hr : r ∈ rs) :
    r.origin ≠ .template ∧
      ((r.name = d.fqn ∧ (d.fqn = Monetary.typeName →
        Passes r .monetary Monetary.defaultFormat ∧
          formatRuleName "MonetaryAmount" Monetary.defaultFormat ∈ rs.map Rule.name)) ∨
        Monetary.rule Monetary.defaultFormat = .ok r) := by
  by_cases hmoney : d.fqn = Monetary.typeName
  · obtain ⟨_, henum, _, _⟩ := hc.monetary_spec (hmoney ▸ hd)
    rw [rulesOf, if_neg (by simp [henum]), if_pos hmoney] at h
    obtain ⟨w, hw, h⟩ := Outcome.bind_eq_ok.mp h
    obtain ⟨hname, horigin, _⟩ := Monetary.rule_spec hw
    cases h
    simp only [List.mem_cons, List.not_mem_nil, or_false] at hr
    rcases hr with rfl | rfl
    · exact ⟨by simp [horigin], .inr hw⟩
    · refine ⟨by simp [SchemaType.ruleOf], .inl ⟨rfl, fun _ => ⟨⟨?_, rfl⟩, ?_⟩⟩⟩
      · simp [SchemaType.ruleOf, hname, Formatted.ruleName]
      · simp [hname]
  · obtain ⟨q, rfl, hq⟩ := rulesOf_single hmoney h
    obtain rfl := List.mem_singleton.mp hr
    refine ⟨?_, .inl ⟨hq, fun h => absurd h hmoney⟩⟩
    unfold rulesOf at h
    split at h
    · cases h
      simp [SchemaType.enumRule, SchemaType.ruleOf]
    · split at h
      · obtain ⟨q', hrule, heq⟩ := Outcome.map_eq_ok.mp h
        obtain rfl : q' = r := by simpa using heq
        obtain ⟨subtypes, _, hrule⟩ := Outcome.bind_eq_ok.mp hrule
        split at hrule
        · cases hrule
        · cases hrule
          simp [SchemaType.ruleOf]
      · cases h
        simp [SchemaType.conceptRule, SchemaType.ruleOf]

/-- With the rule of amounts of money goes that of their default format. -/
theorem named_monetary (hc : c.Built) {root : String} {set : RuleSet}
    (h : c.rules s root = .ok set) (hname : Monetary.typeName ∈ set.names) :
    formatRuleName "MonetaryAmount" Monetary.defaultFormat ∈ set.names := by
  obtain ⟨base, first, types, hbase, hfirst, htypes, hinduction⟩ := exists_of_rules h
  obtain ⟨types', htypes', hreach⟩ := textTypes_spec hc.sound.types (mem_names_of_rules h)
  obtain rfl : types = types' := Except.ok.inj (htypes.symm.trans htypes')
  have hwell : first.WellFormed := Outcome.foldlM_invariant (P := RuleSet.WellFormed)
    RuleSet.wellFormed_empty (fun _ _ _ _ ht hadd => ht.add hadd) hfirst
  have hnone : Monetary.typeName ∉ first.names := by
    intro hmoney
    rw [RuleSet.names, rules_foldlM_add hfirst] at hmoney
    obtain ⟨r, hr, hrname⟩ := List.mem_map.mp hmoney
    have hpoint := (primitiveRule_of_mem hbase (by simpa using hr)).not_dotted
    rw [hrname] at hpoint
    exact hpoint (by decide)
  -- a step that adds the one adds the other
  refine (hinduction (fun t => t.WellFormed ∧ (Monetary.typeName ∈ t.names →
    formatRuleName "MonetaryAmount" Monetary.defaultFormat ∈ t.names))
    ⟨hwell, fun hmoney => absurd hmoney hnone⟩ fun d hd rs hrs t ht hadded => ?_).2 hname
  obtain ⟨hwell', hfrom⟩ := addAll_from ht.1 true rs
  obtain ⟨hkept, hall⟩ := names_addAll (Prod.ext rfl hadded)
  refine ⟨hwell', fun hmoney => ?_⟩
  obtain ⟨r, hr, hrname⟩ := List.mem_map.mp hmoney
  rcases hfrom r hr with hr | hr
  · exact hkept (ht.2 (hrname ▸ RuleSet.mem_names hr))
  · have hfind := ((hreach d).mp hd).1
    rcases (formats_of_rulesOf hc hfind hrs hr).2 with ⟨hd, hpasses⟩ | hformat
    · obtain ⟨q, hq, hqname⟩ := List.mem_map.mp (hpasses (hd.symm.trans hrname)).2
      exact hqname ▸ hall q hq
    · have hline := Formatted.line_of_rule (k := .monetary) hformat
      rw [hrname] at hline
      exact absurd hline (by decide)

/-- **The rules of formats among those that go with a type**: none is one of a template's own,
dates and amounts of money are read in their default formats, and a rule that has the name of
a format is the rule of a default format. -/
structure TypeFormats (s : Settings) (set : RuleSet) : Prop where
  origin : ∀ r ∈ set.rules, r.origin ≠ .template
  passes : ∀ {T k f r}, DefaultFormat s T k f → set.find? T = some r →
    Passes r k f ∧ k.ruleName f ∈ set.names
  format : ∀ {k f r}, r ∈ set.rules → r.name = k.ruleName f →
    ∃ T f', DefaultFormat s T k f' ∧ Formatted.rule k f' = .ok r

/-- **The rules of formats in a rule set**: dates and amounts of money are read in their default
formats, the rules of which are none of a template's own, and any other rule that has the name
of a format is the rule of a format. -/
structure FormatRules (s : Settings) (set : RuleSet) : Prop where
  passes : ∀ {T k f r}, DefaultFormat s T k f → set.find? T = some r →
    Passes r k f ∧ ∀ q, set.find? (k.ruleName f) = some q → q.origin ≠ .template
  format : ∀ {k f r}, set.find? (k.ruleName f) = some r → r.origin ≠ .template →
    ∃ f', Formatted.rule k f' = .ok r

/-- The rule for dates passes on what their default format has read. -/
theorem Built.passes_date (hc : c.Built) {root : String} {set : RuleSet}
    (h : c.rules s root = .ok set) {r : Rule} (hr : r ∈ set.rules) (hname : r.name = "DateTime") :
    Passes r .date s.dateFormat := by
  have hline : '_' ∉ r.name.toList := by
    rw [hname]
    decide
  rcases cases_of_mem_rules hc.sound.types h hr with hr | ⟨d, rs, hd, hrs, hr⟩
  · rcases (PrimitiveRule.format_cases hr).2 with ⟨_, hother⟩ | hformat | ⟨_, hpasses⟩
    · exact absurd hname hother
    · exact absurd (Formatted.line_of_rule (k := .date) hformat) hline
    · exact hpasses
  · rcases (formats_of_rulesOf hc hd hrs hr).2 with ⟨hfqn, _⟩ | hformat
    · have hdotted := hc.dotted (Table.mem_names_of_find hd)
      rw [← hfqn, hname] at hdotted
      exact absurd hdotted (by decide)
    · exact absurd (Formatted.line_of_rule (k := .monetary) hformat) hline

/-- The rule for amounts of money passes on what their default format has read. -/
theorem Built.passes_money (hc : c.Built) {root : String} {set : RuleSet}
    (h : c.rules s root = .ok set) {r : Rule} (hr : r ∈ set.rules)
    (hname : r.name = Monetary.typeName) : Passes r .monetary Monetary.defaultFormat := by
  have hline : '_' ∉ r.name.toList := by
    rw [hname]
    decide
  rcases cases_of_mem_rules hc.sound.types h hr with hr | ⟨d, rs, hd, hrs, hr⟩
  · have hpoint := hr.not_dotted
    rw [hname] at hpoint
    exact absurd (by decide) hpoint
  · rcases (formats_of_rulesOf hc hd hrs hr).2 with ⟨hfqn, hpasses⟩ | hformat
    · exact (hpasses (hfqn.symm.trans hname)).1
    · exact absurd (Formatted.line_of_rule (k := .monetary) hformat) hline

/-- A rule that goes with a type and has the name of a format is that of a default format. -/
theorem Built.exists_defaultFormat (hc : c.Built) {root : String} {set : RuleSet}
    (h : c.rules s root = .ok set) {r : Rule} (hr : r ∈ set.rules) {k : Formatted} {f : String}
    (hname : r.name = k.ruleName f) :
    ∃ T f', DefaultFormat s T k f' ∧ Formatted.rule k f' = .ok r := by
  have hline : '_' ∈ r.name.toList := hname ▸ k.mem_ruleName f
  have hpoint : '.' ∉ r.name.toList := hname ▸ k.not_dotted_ruleName f
  have hkind : ∀ {T k' f'}, DefaultFormat s T k' f' → Formatted.rule k' f' = .ok r →
      ∃ T f', DefaultFormat s T k f' ∧ Formatted.rule k f' = .ok r := by
    intro T k' f' hdefault hr
    obtain rfl := Formatted.kind_of_ruleName ((Formatted.rule_spec hr).1.symm.trans hname)
    exact ⟨T, f', hdefault, hr⟩
  rcases cases_of_mem_rules hc.sound.types h hr with hr | ⟨d, rs, hd, hrs, hr⟩
  · rcases (PrimitiveRule.format_cases hr).2 with ⟨hplain, _⟩ | hformat | ⟨hdate, _⟩
    · exact absurd hline hplain
    · exact hkind .date hformat
    · rw [hdate] at hline
      exact absurd hline (by decide)
  · rcases (formats_of_rulesOf hc hd hrs hr).2 with ⟨hfqn, _⟩ | hformat
    · exact absurd (hfqn ▸ hc.dotted (Table.mem_names_of_find hd)) hpoint
    · exact hkind .money hformat

/-- **The rules that go with a type** are of this kind. -/
theorem Built.typeFormats (hc : c.Built) {root : String} {set : RuleSet}
    (h : c.rules s root = .ok set) : TypeFormats s set := by
  obtain ⟨hwell, base, _, hbase, _⟩ := mem_rules h
  refine ⟨fun r hr => ?_, fun {T k f r} hdefault hfind => ?_, fun hr hname =>
    hc.exists_defaultFormat h hr hname⟩
  · rcases cases_of_mem_rules hc.sound.types h hr with hr | ⟨d, rs, hd, hrs, hr⟩
    · exact (PrimitiveRule.format_cases hr).1
    · exact (formats_of_rulesOf hc hd hrs hr).1
  · obtain ⟨hr, hname⟩ := hwell.find_eq_some_iff.mp hfind
    cases hdefault with
    | date =>
      have hwritten : formatRuleName "DateTime" s.dateFormat ∈ set.names := by
        obtain ⟨_, q, hq, hformat⟩ := dateRule_mem hbase
        exact hformat ▸ RuleSet.mem_names (base_subset_rules h hbase hq)
      exact ⟨hc.passes_date h hr hname, hwritten⟩
    | money =>
      exact ⟨hc.passes_money h hr hname, named_monetary hc h (hname ▸ RuleSet.mem_names hr)⟩

end

end Catalog

end Covenant
