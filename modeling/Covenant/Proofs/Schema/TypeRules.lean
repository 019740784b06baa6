import Covenant.Proofs.Grammar.Growth
import Covenant.Proofs.Schema.Explore

/-!
The rules of the types that a type leads to.

* `Catalog.TypeRule`: the names of these rules.
* `Catalog.mem_rules`: where these rules come from.
* `Catalog.rules_spec`: the rules exist when the default format of dates can be read and
  no type on the way is abstract without a concrete subtype; they refer to each other
  only, except where the type itself is reached again.
-/

namespace Covenant

/-! ### Rules of formats -/

theorem mem_formatRuleName (type format : String) : '_' ∈ (formatRuleName type format).toList := by
  simp [formatRuleName]

theorem Digest.isAlphanum_hex (n : Nat) : (Digest.hex n).isAlphanum = true := by
  by_cases hn : n < 16
  · have hall : ∀ n, n < 16 → (Digest.hex n).isAlphanum = true := by decide
    exact hall n hn
  · have hdefault : Digest.hex n = '0' := by
      rw [Digest.hex, List.getD_eq_default]
      simpa using hn
    rw [hdefault]
    rfl

/-- Digests consist of letters and digits. -/
theorem Digest.isAlphanum_of_mem {text : String} {c : Char} (hc : c ∈ (ofString text).toList) :
    c.isAlphanum = true := by
  rw [ofString, ofBytes, String.toList_ofList] at hc
  obtain ⟨w, _, hc⟩ := List.mem_flatMap.mp hc
  obtain ⟨b, _, hc⟩ := List.mem_flatMap.mp hc
  rcases List.mem_pair.mp hc with rfl | rfl <;> exact isAlphanum_hex _

/-- What the name of the rule of a format is made of. -/
theorem char_of_formatRuleName {type format : String} {c : Char}
    (hc : c ∈ (formatRuleName type format).toList) :
    c ∈ type.toList ∨ c = '_' ∨ c.isAlphanum = true := by
  simp only [formatRuleName, String.toList_append, String.toList_ofList, List.mem_append] at hc
  rcases hc with (hc | hc) | hc
  · exact .inl hc
  · exact .inr (.inl (by simpa using hc))
  · exact .inr (.inr (Digest.isAlphanum_of_mem (List.mem_of_mem_take hc)))

theorem formatRule_closed (type action format : String) {symbols : List Symbol}
    (hne : symbols ≠ []) (hsymbols : ∀ s ∈ symbols, s.kind ≠ .rule) (known : String → Prop) :
    (formatRule type action format symbols).Closed known := by
  refine ⟨⟨by simp [formatRule], by simpa [formatRule] using hne⟩, ?_, ?_⟩
  · intro x hx
    obtain ⟨a, ha, s, hs, hk, _⟩ := Rule.mem_references.mp hx
    rw [List.mem_singleton.mp ha] at hs
    exact absurd hk (hsymbols s hs)
  · intro a ha p hp
    cases ha
    rw [List.mem_singleton.mp hp]
    rfl

theorem DateFormat.tokens_ne_nil {format : String} {f : DateFormat}
    (h : DateFormat.ofString format = .ok f) : f.tokens ≠ [] := by
  unfold DateFormat.ofString at h
  split at h
  · cases h
  · split at h
    · cases h
    · split at h
      · rename_i hany
        cases h
        rintro rfl
        cases hany
      · cases h

theorem DateToken.symbol_kind (t : DateToken) : t.symbol.kind ≠ .rule := by
  cases t <;> simp [DateToken.symbol, Symbol.pattern, Symbol.literal]

theorem DateTime.rule_spec {format : String} {r : Rule} (h : DateTime.rule format = .ok r) :
    r.name = formatRuleName "DateTime" format ∧ r.origin = .format ∧
      ∀ known, r.Closed known := by
  obtain ⟨f, hf, h⟩ := Outcome.bind_eq_ok.mp h
  cases h
  refine ⟨rfl, rfl, fun known => formatRule_closed _ _ _ ?_ ?_ known⟩
  · simpa [DateFormat.symbols] using DateFormat.tokens_ne_nil hf
  · intro s hs
    obtain ⟨t, _, rfl⟩ := List.mem_map.mp hs
    exact t.symbol_kind

theorem AmountFormat.affix_kind {cs : List Char} : ∀ s ∈ AmountFormat.affix cs, s.kind ≠ .rule := by
  intro s hs
  unfold AmountFormat.affix at hs
  split at hs
  · cases hs
  · rw [List.mem_singleton.mp hs]
    simp [Symbol.literal]

theorem Amount.rule_spec {format : String} {r : Rule} (h : Amount.rule format = .ok r) :
    r.name = formatRuleName "Double" format ∧ r.origin = .format ∧ ∀ known, r.Closed known := by
  obtain ⟨f, _, h⟩ := Outcome.bind_eq_ok.mp h
  cases h
  refine ⟨rfl, rfl, fun known => formatRule_closed _ _ _ (by simp [AmountFormat.symbols]) ?_ known⟩
  intro s hs
  rcases List.mem_append.mp hs with hs | hs
  · rcases List.mem_append.mp hs with hs | hs
    · exact AmountFormat.affix_kind s hs
    · rw [List.mem_singleton.mp hs]
      simp [AmountFormat.number, Symbol.pattern]
  · exact AmountFormat.affix_kind s hs

theorem Monetary.rule_spec {format : String} {r : Rule} (h : Monetary.rule format = .ok r) :
    r.name = formatRuleName "MonetaryAmount" format ∧ r.origin = .format ∧
      ∀ known, r.Closed known := by
  obtain ⟨f, _, h⟩ := Outcome.bind_eq_ok.mp h
  cases h
  refine ⟨rfl, rfl, fun known => formatRule_closed _ _ _ ?_ ?_ known⟩
  · simp [MonetaryFormat.symbols, MonetaryFormat.layout]
  · intro s hs
    obtain ⟨p, _, rfl⟩ := List.mem_map.mp hs
    cases p <;> simp [MonetaryFormat.symbol, Symbol.literal, Symbol.pattern, AmountFormat.number]

def Formatted.ruleName (k : Formatted) (format : String) : String :=
  match k with
  | .date => formatRuleName "DateTime" format
  | .amount => formatRuleName "Double" format
  | .monetary => formatRuleName "MonetaryAmount" format

/-- **The rule for a format** has the name of the format, and refers to no other rule. -/
theorem Formatted.rule_spec {k : Formatted} {format : String} {r : Rule}
    (h : k.rule format = .ok r) :
    r.name = k.ruleName format ∧ r.origin = .format ∧ ∀ known, r.Closed known := by
  cases k with
  | date => exact DateTime.rule_spec h
  | amount => exact Amount.rule_spec h
  | monetary => exact Monetary.rule_spec h

/-! ### Primitive types -/

/-- The names of the rules of primitive types and of any text. -/
def primitiveRuleNames (s : Settings) : List String :=
  ["String", "Integer", "Long", "Double", "Boolean", formatRuleName "DateTime" s.dateFormat,
    "DateTime", anyRule]

theorem nodup_primitiveRuleNames (s : Settings) : (primitiveRuleNames s).Nodup := by
  have hne : ∀ x : String, '_' ∉ x.toList → x ≠ formatRuleName "DateTime" s.dateFormat := by
    rintro x hx rfl
    exact hx (mem_formatRuleName _ _)
  have h1 := hne "String" (by decide)
  have h2 := hne "Integer" (by decide)
  have h3 := hne "Long" (by decide)
  have h4 := hne "Double" (by decide)
  have h5 := hne "Boolean" (by decide)
  have h6 := (hne "DateTime" (by decide)).symm
  have h7 := (hne "Any" (by decide)).symm
  simp [primitiveRuleNames, anyRule, h1, h2, h3, h4, h5, h6, h7]

theorem patternRule_closed (name regex action : String) (known : String → Prop) :
    (patternRule name regex action).Closed known := by
  refine ⟨⟨by simp [patternRule], by simp [patternRule]⟩, ?_, ?_⟩
  · intro x hx
    obtain ⟨a, ha, s, hs, hk, _⟩ := Rule.mem_references.mp hx
    rw [List.mem_singleton.mp ha] at hs
    rw [List.mem_singleton.mp hs] at hk
    cases hk
  · intro a ha p hp
    cases ha
    cases hp

/-- A rule that passes on the value of one other rule. -/
theorem closed_of_reference {r : Rule} {x : String} {c : Cardinality} {known : String → Prop}
    (halternatives : r.alternatives = [[.rule x c]]) (haction : r.action = none) (hx : known x) :
    r.Closed known := by
  refine ⟨⟨by simp [halternatives], by simp [halternatives]⟩, ?_, ?_⟩
  · intro y hy
    obtain ⟨a, ha, s, hs, _, rfl⟩ := Rule.mem_references.mp hy
    rw [halternatives] at ha
    rw [List.mem_singleton.mp ha] at hs
    rw [List.mem_singleton.mp hs]
    exact hx
  · intro a ha
    rw [haction] at ha
    cases ha

/-- **The rules of primitive types**: those of their patterns, that of the default format of
dates and the one that passes on what it has read, and that of any text. -/
inductive PrimitiveRule (s : Settings) : Rule → Prop where
  | pattern {T regex action : String} {t : Primitive} (ht : (T, t) ∈ Primitive.names)
      (hpattern : t.pattern? = some (regex, action)) : PrimitiveRule s (patternRule T regex action)
  | format {w : Rule} (hw : DateTime.rule s.dateFormat = .ok w) : PrimitiveRule s w
  | date {w : Rule} (hw : DateTime.rule s.dateFormat = .ok w) :
      PrimitiveRule s
        { name := "DateTime", alternatives := [[.rule w.name]]
          comment := some ("DateTime value, default format " ++ s.dateFormat), origin := .base }
  | any : PrimitiveRule s (patternRule anyRule "[\\s\\S]+" "text")

theorem primitiveRule_of_mem {s : Settings} {base : List Rule} (h : primitiveRules s = .ok base)
    {r : Rule} (hr : r ∈ base) : PrimitiveRule s r := by
  obtain ⟨dates, hdates, h⟩ := Outcome.bind_eq_ok.mp h
  obtain ⟨w, hw, hdates⟩ := Outcome.bind_eq_ok.mp hdates
  cases hdates
  cases h
  rcases List.mem_append.mp hr with hr | hr
  · rcases List.mem_append.mp hr with hr | hr
    · obtain ⟨⟨T, t⟩, ht, hr⟩ := List.mem_filterMap.mp hr
      obtain ⟨⟨regex, action⟩, hpattern, rfl⟩ := Option.map_eq_some_iff.mp hr
      exact .pattern ht hpattern
    · rcases List.mem_pair.mp hr with rfl | rfl
      · exact .format hw
      · exact .date hw
  · rw [List.mem_singleton.mp hr]
    exact .any

/-- **The rules of primitive types** exist when the default format of dates can be
read. -/
theorem primitiveRules_spec {s : Settings} {w : Rule} (h : DateTime.rule s.dateFormat = .ok w) :
    ∃ rs, primitiveRules s = .ok rs ∧ rs.map Rule.name = primitiveRuleNames s ∧
      ∀ r ∈ rs, r.Closed (· ∈ primitiveRuleNames s) := by
  obtain ⟨hname, _, hclosed⟩ := DateTime.rule_spec h
  have hdates : dateRules s = .ok [w,
      { name := "DateTime", alternatives := [[.rule w.name]]
        comment := some ("DateTime value, default format " ++ s.dateFormat), origin := .base }] := by
    rw [dateRules, h]
    rfl
  obtain ⟨rs, hrules, hnames⟩ : ∃ rs, primitiveRules s = .ok rs ∧
      rs.map Rule.name = primitiveRuleNames s := by
    refine ⟨_, by rw [primitiveRules, hdates]; rfl, ?_⟩
    simp [Primitive.names, Primitive.pattern?, patternRule, primitiveRuleNames, hname]
  refine ⟨rs, hrules, hnames, fun r hr => ?_⟩
  cases primitiveRule_of_mem hrules hr with
  | pattern | any => exact patternRule_closed _ _ _ _
  | format hw =>
    cases h.symm.trans hw
    exact hclosed _
  | date hw =>
    cases h.symm.trans hw
    exact closed_of_reference rfl rfl (by simp [hname, primitiveRuleNames])

/-! ### Declared types -/

namespace Catalog

/-- The names that rules of a type may refer to: those of primitive types and of any
text, and those of the types that the type leads to. -/
def Referable (c : Catalog) (s : Settings) (d : SchemaType) (x : String) : Prop :=
  x ∈ primitiveRuleNames s ∨ x ∈ c.successors d

theorem enumRule_closed {d : SchemaType} (hvalues : d.values ≠ []) (known : String → Prop) :
    d.enumRule.Closed known := by
  refine ⟨⟨by simpa [SchemaType.enumRule, SchemaType.ruleOf] using hvalues, ?_⟩, ?_, ?_⟩
  · intro a ha
    obtain ⟨v, _, rfl⟩ := List.mem_map.mp ha
    simp
  · intro x hx
    obtain ⟨a, ha, s, hs, hk, _⟩ := Rule.mem_references.mp hx
    obtain ⟨v, _, rfl⟩ := List.mem_map.mp ha
    rw [List.mem_singleton.mp hs] at hk
    cases hk
  · intro a ha p hp
    cases ha
    cases hp

/-- The rule of a property's value is that of a primitive type or of a type that the
property's type leads to. -/
theorem referable_ruleName {c : Catalog} {s : Settings} {d : SchemaType} {p : Property}
    (hp : p ∈ d.properties) : c.Referable s d p.ruleName := by
  unfold Property.ruleName
  split
  · exact .inl (by simp [primitiveRuleNames])
  · rename_i hrelationship
    by_cases hprimitive : p.isPrimitive = true
    · refine .inl ?_
      obtain ⟨t, ht⟩ := Option.isSome_iff_exists.mp hprimitive
      have hmem := Table.mem_of_find ht
      simp only [Primitive.names, List.mem_cons, Prod.mk.injEq, List.not_mem_nil, or_false] at hmem
      rcases hmem with ⟨h, _⟩ | ⟨h, _⟩ | ⟨h, _⟩ | ⟨h, _⟩ | ⟨h, _⟩ | ⟨h, _⟩ <;>
        simp [h, primitiveRuleNames]
    · refine .inr (List.mem_append_right _ (List.mem_filterMap.mpr ⟨p, hp, ?_⟩))
      simp [Property.target?, hprimitive, hrelationship]

theorem mem_intersperse {α : Type} {sep x : α} {xs : List α} (h : x ∈ xs.intersperse sep) :
    x = sep ∨ x ∈ xs := by
  induction xs with
  | nil => cases h
  | cons y xs ih =>
    cases xs with
    | nil => exact .inr h
    | cons z zs =>
      rw [List.intersperse_cons_cons] at h
      rcases List.mem_cons.mp h with rfl | h
      · exact .inr (by simp)
      · rcases List.mem_cons.mp h with rfl | h
        · exact .inl rfl
        · rcases ih h with h | h
          · exact .inl h
          · exact .inr (List.mem_cons_of_mem _ h)

/-- **The rule of a concept** refers to the rules of its properties, and takes each value
from its own place. -/
theorem conceptRule_closed (c : Catalog) (s : Settings) (d : SchemaType) :
    d.conceptRule.Closed (c.Referable s d) := by
  refine ⟨⟨by simp [SchemaType.conceptRule, SchemaType.ruleOf], ?_⟩, ?_, ?_⟩
  · intro a ha
    rw [List.mem_singleton.mp ha]
    split
    · simp
    · rename_i hempty
      simpa [List.isEmpty_iff] using hempty
  · intro x hx
    obtain ⟨a, ha, y, hy, hk, rfl⟩ := Rule.mem_references.mp hx
    rw [List.mem_singleton.mp ha] at hy
    split at hy
    · rw [List.mem_singleton.mp hy] at hk
      cases hk
    · rcases mem_intersperse hy with rfl | hy
      · cases hk
      · obtain ⟨p, hp, rfl⟩ := List.mem_map.mp hy
        exact referable_ruleName hp
  · intro a ha p hp
    cases ha
    rcases List.mem_cons.mp hp with rfl | hp
    · rfl
    · obtain ⟨⟨q, i⟩, hq, rfl⟩ := List.mem_map.mp hp
      obtain ⟨_, hlt, _⟩ := List.mem_zipIdx hq
      have hne : d.properties ≠ [] := by
        rintro hnil
        simp [hnil] at hlt
      have hlength : (2 * i : Int) < ((d.properties.map SchemaType.propertySymbol).intersperse
          (.literal " ")).length := by
        rw [List.length_intersperse, List.length_map]
        omega
      have hsymbols : ((d.properties.map SchemaType.propertySymbol).intersperse
          (.literal " ")).isEmpty = false := by
        rw [List.isEmpty_eq_false_iff]
        intro hnil
        rw [hnil] at hlength
        simp at hlength
        omega
      have hpos : (0 : Int) ≤ 2 * i := by omega
      simp only [RuleSet.sourceFault?, SchemaType.conceptRule, SchemaType.ruleOf, hsymbols]
      rw [if_pos (by simp only [List.all_cons, List.all_nil, Bool.false_eq_true, if_false,
        decide_eq_true hpos, decide_eq_true hlength, Bool.and_self])]

/-- **The rule of an abstract type** is a choice between its concrete subtypes. -/
theorem abstractRule_spec {c : Catalog} (hc : Resolved c.types) (s : Settings) {d : SchemaType}
    (hd : ∃ e ∈ c.types, e.2 = d) (habstract : d.abstract = true) (hne : c.subtypes d.fqn ≠ []) :
    ∃ r, c.abstractRule d = .ok r ∧ r.name = d.fqn ∧ r.Closed (c.Referable s d) := by
  have hname : d.fqn ∈ c.types.names := Table.mem_names_of_find (find_of_mem hc hd)
  refine ⟨d.ruleOf ((c.subtypes d.fqn).map fun t => [.rule t.fqn]) none, ?_, rfl, ?_⟩
  · rw [abstractRule, concreteSubtypes_eq hc hname]
    have hempty : (c.subtypes d.fqn).isEmpty = false := List.isEmpty_eq_false_iff.mpr hne
    simp [bind, Except.bind, hempty, pure, Except.pure]
  · refine ⟨⟨by simpa [SchemaType.ruleOf] using hne, ?_⟩, ?_, ?_⟩
    · intro a ha
      obtain ⟨t, _, rfl⟩ := List.mem_map.mp ha
      simp
    · intro x hx
      obtain ⟨a, ha, y, hy, _, rfl⟩ := Rule.mem_references.mp hx
      obtain ⟨t, ht, rfl⟩ := List.mem_map.mp ha
      rw [List.mem_singleton.mp hy]
      refine .inr (List.mem_append_left _ ?_)
      rw [if_pos habstract]
      exact List.mem_map.mpr ⟨t, ht, rfl⟩
    · intro a ha
      cases ha

def ownRuleNames (d : SchemaType) : List String :=
  if d.isEnum = false ∧ d.fqn = Monetary.typeName then
    [formatRuleName "MonetaryAmount" Monetary.defaultFormat, d.fqn]
  else [d.fqn]

/-- A type whose rule would be a choice between no types: it is abstract, it is neither an
enumeration nor that of amounts of money, which have rules of their own, and it has no concrete
subtype. -/
structure Childless (c : Catalog) (d : SchemaType) : Prop where
  isEnum : d.isEnum = false
  fqn_ne : d.fqn ≠ Monetary.typeName
  abstract : d.abstract = true
  subtypes : c.subtypes d.fqn = []

theorem Childless.abstractRule {c : Catalog} {d : SchemaType} (h : c.Childless d)
    (hc : Resolved c.types) (hd : ∃ e ∈ c.types, e.2 = d) :
    (c.abstractRule d).map ([·]) = Outcome.fail (.model (.noSubtypes d.fqn)) := by
  rw [Catalog.abstractRule, concreteSubtypes_eq hc (Table.mem_names_of_find (find_of_mem hc hd)),
    h.subtypes]
  rfl

/-- Such a type has no rules. -/
theorem Childless.rulesOf {c : Catalog} {d : SchemaType} (h : c.Childless d)
    (hc : Resolved c.types) (hd : ∃ e ∈ c.types, e.2 = d) :
    c.rulesOf d = .fail (.model (.noSubtypes d.fqn)) := by
  rw [Catalog.rulesOf, if_neg (by simp [h.isEnum]), if_neg h.fqn_ne, if_pos h.abstract]
  exact h.abstractRule hc hd

theorem monetaryRule_default : ∃ r, Monetary.rule Monetary.defaultFormat = .ok r := by
  have hformat : ∃ f, MonetaryFormat.ofString Monetary.defaultFormat = .ok f := ⟨_, rfl⟩
  obtain ⟨f, hf⟩ := hformat
  exact ⟨_, by rw [Monetary.rule, hf]; rfl⟩

/-- **The rules of a type** exist, unless it is abstract and has no concrete subtype. They
refer to each other, to primitive types and to the types that the type leads to. -/
theorem rulesOf_spec {c : Catalog} (hc : Resolved c.types) (s : Settings) {d : SchemaType}
    (hd : ∃ e ∈ c.types, e.2 = d) :
    (∃ rs, c.rulesOf d = .ok rs ∧ rs.map Rule.name = ownRuleNames d ∧
      ∀ r ∈ rs, r.Closed fun x => c.Referable s d x ∨ x ∈ ownRuleNames d) ∨
    c.rulesOf d = .fail (.model (.noSubtypes d.fqn)) ∧ c.Childless d := by
  unfold rulesOf ownRuleNames
  by_cases henum : d.isEnum = true
  · obtain ⟨e, he, rfl⟩ := hd
    rw [if_pos henum, if_neg (by simp [henum])]
    exact .inl ⟨_, rfl, rfl, by simpa using enumRule_closed (hc.values e he henum) _⟩
  · rw [if_neg henum]
    have henum' : d.isEnum = false := by simpa using henum
    by_cases hmoney : d.fqn = Monetary.typeName
    · rw [if_pos hmoney, if_pos ⟨henum', hmoney⟩]
      obtain ⟨w, hw⟩ := monetaryRule_default
      obtain ⟨hname, _, hclosed⟩ := Monetary.rule_spec hw
      refine .inl
        ⟨_, by rw [SchemaType.monetaryRules, hw]; rfl, by simp [hname, SchemaType.ruleOf], ?_⟩
      intro r hr
      simp only [List.mem_cons, List.not_mem_nil, or_false] at hr
      rcases hr with rfl | rfl
      · exact hclosed _
      · exact closed_of_reference rfl rfl (by simp [hname])
    · have hother : ¬ (d.isEnum = false ∧ d.fqn = Monetary.typeName) := fun h => hmoney h.2
      rw [if_neg hmoney, if_neg hother]
      by_cases h : d.abstract = true
      · rw [if_pos h]
        by_cases hsubtypes : c.subtypes d.fqn = []
        · have hchildless : c.Childless d := ⟨henum', hmoney, h, hsubtypes⟩
          exact .inr ⟨hchildless.abstractRule hc hd, hchildless⟩
        · obtain ⟨r, hr, hname, hclosed⟩ := abstractRule_spec hc s hd h hsubtypes
          rw [hr]
          refine .inl ⟨[r], rfl, by simp [hname], ?_⟩
          intro q hq
          rw [List.mem_singleton.mp hq]
          exact hclosed.mono fun x hx => .inl hx
      · rw [if_neg h]
        refine .inl ⟨_, rfl, rfl, ?_⟩
        intro q hq
        rw [List.mem_singleton.mp hq]
        exact (conceptRule_closed c s d).mono fun x hx => .inl hx

/-! ### All rules -/

/-- The names of the rules that go with a template's type: those of primitive types and of
any text, and those of the types that it leads to, without itself. -/
def TypeRule (c : Catalog) (s : Settings) (root x : String) : Prop :=
  x ∈ primitiveRuleNames s ∨ ∃ d, c.types.find? d.fqn = some d ∧
    Relation.ReflTransGen c.Leads root d.fqn ∧ d.fqn ≠ root ∧ x ∈ ownRuleNames d

theorem fqn_mem_ownRuleNames (d : SchemaType) : d.fqn ∈ ownRuleNames d := by
  unfold ownRuleNames
  split <;> simp

/-- A name is that of a type which leads back to itself. -/
def Recurs (c : Catalog) (root x : String) : Prop :=
  x = root ∧ Relation.TransGen c.Leads root root

/-- A type that the root leads to, or the root itself, refers to type rules, or to the root if
it leads back to itself. -/
theorem typeRule_of_referable {c : Catalog} (hc : Resolved c.types) {s : Settings} {root : String}
    {d : SchemaType} (hfind : c.types.find? d.fqn = some d)
    (hd : Relation.ReflTransGen c.Leads root d.fqn) {x : String} (hx : c.Referable s d x) :
    c.TypeRule s root x ∨ c.Recurs root x := by
  rcases hx with hx | hx
  · exact .inl (.inl hx)
  · have hstep : c.Leads d.fqn x := ⟨d, hfind, hx⟩
    obtain ⟨e, he⟩ := Table.exists_find
      (mem_names_of_successor hc (mem_of_find_fqn hc hfind).1 hx)
    obtain ⟨_, rfl⟩ := mem_of_find_fqn hc he
    have hback := Relation.TransGen.tail' hd hstep
    by_cases hroot : e.fqn = root
    · rw [hroot] at hback
      exact .inr ⟨hroot, hback⟩
    · exact .inl (.inr ⟨e, he, hd.tail hstep, hroot, fqn_mem_ownRuleNames e⟩)

theorem addNew_spec {set : RuleSet} (hset : set.WellFormed) {rs : List Rule}
    (hrs : ∀ r ∈ rs, r.Filled) : ∃ set', addNew set rs = .ok set' ∧ set'.WellFormed ∧
      (∀ r ∈ set'.rules, r ∈ set.rules ∨ r ∈ rs) ∧
      ∀ x, x ∈ set'.names ↔ x ∈ set.names ∨ x ∈ rs.map Rule.name := by
  obtain ⟨new, hadd, hwell, hsub, hall⟩ := RuleSet.addAll_skip hset hrs
  refine ⟨_, by rw [addNew, hadd], hwell, ?_, fun x => ⟨fun hx => ?_, fun hx => ?_⟩⟩
  · intro r hr
    rcases List.mem_append.mp hr with hr | hr
    · exact .inl hr
    · exact .inr (hsub r hr)
  · obtain ⟨r, hr, rfl⟩ := List.mem_map.mp hx
    rcases List.mem_append.mp hr with hr | hr
    · exact .inl (RuleSet.mem_names hr)
    · exact .inr (List.mem_map.mpr ⟨r, hsub r hr, rfl⟩)
  · rcases hx with hx | hx
    · obtain ⟨r, hr, rfl⟩ := List.mem_map.mp hx
      exact List.mem_map.mpr ⟨r, List.mem_append_left _ hr, rfl⟩
    · obtain ⟨r, hr, rfl⟩ := List.mem_map.mp hx
      exact hall r hr

/-- Adding the rules of several types, one of which may have none. -/
theorem foldlM_addNew {c : Catalog} {P : Rule → Prop} {Q : Fault → Prop} {ds : List SchemaType}
    {set : RuleSet} (hset : set.WellFormed) (hP : ∀ r ∈ set.rules, P r)
    (hds : ∀ d ∈ ds, (∃ rs, c.rulesOf d = .ok rs ∧ rs.map Rule.name = ownRuleNames d ∧
      ∀ r ∈ rs, r.Filled ∧ P r) ∨ ∃ f, c.rulesOf d = .error f ∧ Q f) :
    (∃ set', ds.foldlM (fun set d => do addNew set (← c.rulesOf d)) set = .ok set' ∧
      set'.WellFormed ∧ (∀ r ∈ set'.rules, P r) ∧
      ∀ x, x ∈ set'.names ↔ x ∈ set.names ∨ ∃ d ∈ ds, x ∈ ownRuleNames d) ∨
    ∃ f, ds.foldlM (fun set d => do addNew set (← c.rulesOf d)) set = .error f ∧ Q f := by
  induction ds generalizing set with
  | nil => exact .inl ⟨set, rfl, hset, hP, by simp⟩
  | cons d ds ih =>
    rw [List.foldlM_cons]
    rcases hds d (by simp) with ⟨rs, hrs, hnames, hall⟩ | ⟨f, hf, hQ⟩
    · obtain ⟨set₁, hadd, hwell, hfrom, hmem⟩ := addNew_spec hset fun r hr => (hall r hr).1
      have hP₁ : ∀ r ∈ set₁.rules, P r := by
        intro r hr
        rcases hfrom r hr with hr | hr
        · exact hP r hr
        · exact (hall r hr).2
      rw [hrs]
      simp only [bind, Except.bind, hadd]
      refine (ih hwell hP₁ fun e he => hds e (by simp [he])).imp_left ?_
      rintro ⟨set', hfold, hwell', hP', hmem'⟩
      refine ⟨set', hfold, hwell', hP', fun x => ?_⟩
      rw [hmem', hmem, hnames]
      simp [or_assoc]
    · rw [hf]
      exact .inr ⟨f, rfl, hQ⟩

/-- Adding rules whose names are not taken adds none but those. -/
theorem addAll_from {set : RuleSet} (hset : set.WellFormed) (skip : Bool) (rs : List Rule) :
    (set.addAll skip rs).1.WellFormed ∧
      ∀ r ∈ (set.addAll skip rs).1.rules, r ∈ set.rules ∨ r ∈ rs := by
  refine ⟨hset.addAll skip rs, fun r hr => ?_⟩
  rw [RuleSet.rules_addAll] at hr
  exact (List.mem_append.mp hr).imp_right fun h => (set.accepted_sublist skip rs).subset h

/-- Rules that are added one by one come at the end. -/
theorem rules_foldlM_add {s t : RuleSet} {rs : List Rule} (h : rs.foldlM RuleSet.add s = .ok t) :
    t.rules = s.rules ++ rs := by
  induction rs generalizing s with
  | nil =>
    cases h
    simp
  | cons r rs ih =>
    rw [List.foldlM_cons] at h
    obtain ⟨s₁, hadd, h⟩ := Outcome.bind_eq_ok.mp h
    rw [ih h, RuleSet.rules_add hadd, List.append_assoc, List.singleton_append]

/-- Adding rules drops none. -/
theorem subset_addAll (s : RuleSet) (skip : Bool) (rs : List Rule) :
    s.rules ⊆ (s.addAll skip rs).1.rules := by
  rw [RuleSet.rules_addAll]
  exact List.subset_append_left _ _

/-- **How the rules that go with a type are made**: what holds of the rules of primitive types, and
goes on to hold when the rules of a type are added whose names are not taken, holds of all. -/
theorem exists_of_rules {c : Catalog} {s : Settings} {root : String} {set : RuleSet}
    (h : c.rules s root = .ok set) : ∃ base first types, primitiveRules s = .ok base ∧
      base.foldlM RuleSet.add {} = .ok first ∧ c.textTypes root = .ok types ∧
      ∀ P : RuleSet → Prop, P first → (∀ d ∈ types, ∀ rs, c.rulesOf d = .ok rs → ∀ t, P t →
        (t.addAll true rs).2 = none → P (t.addAll true rs).1) → P set := by
  obtain ⟨base, hbase, h⟩ := Outcome.bind_eq_ok.mp h
  obtain ⟨first, hfirst, h⟩ := Outcome.bind_eq_ok.mp h
  obtain ⟨types, htypes, h⟩ := Outcome.bind_eq_ok.mp h
  refine ⟨base, first, types, hbase, hfirst, htypes, fun P hP hstep => ?_⟩
  refine Outcome.foldlM_invariant (P := P) hP (fun d hd t t' ht hadd => ?_) h
  obtain ⟨rs, hrs, hadd⟩ := Outcome.bind_eq_ok.mp hadd
  have hnext := hstep d (List.mem_filter.mp hd).1 rs hrs t ht
  unfold addNew at hadd
  split at hadd
  · rename_i t'' heq
    cases hadd
    rw [heq] at hnext
    exact hnext rfl
  · cases hadd

/-- **Every rule that goes with a type** is that of a primitive type, or one of the rules
of a type that it leads to. -/
theorem mem_rules {c : Catalog} {s : Settings} {root : String} {set : RuleSet}
    (h : c.rules s root = .ok set) : set.WellFormed ∧ ∃ base types,
      primitiveRules s = .ok base ∧ c.textTypes root = .ok types ∧
      ∀ r ∈ set.rules, r ∈ base ∨ ∃ d ∈ types, ∃ rs, c.rulesOf d = .ok rs ∧ r ∈ rs := by
  obtain ⟨base, first, types, hbase, hfirst, htypes, hinduction⟩ := exists_of_rules h
  have hwell : first.WellFormed := Outcome.foldlM_invariant (P := RuleSet.WellFormed)
    RuleSet.wellFormed_empty (fun _ _ _ _ ht hadd => ht.add hadd) hfirst
  have hrules : first.rules = base := rules_foldlM_add hfirst
  have hall := hinduction (fun t => t.WellFormed ∧ ∀ r ∈ t.rules, r ∈ base ∨
      ∃ d ∈ types, ∃ rs, c.rulesOf d = .ok rs ∧ r ∈ rs)
    ⟨hwell, fun r hr => .inl (hrules ▸ hr)⟩ (fun d hd rs hrs t ht _ => by
      obtain ⟨hwell, hmem⟩ := addAll_from ht.1 true rs
      exact ⟨hwell, fun r hr => (hmem r hr).elim (ht.2 r) fun hr => .inr ⟨d, hd, rs, hrs, hr⟩⟩)
  exact ⟨hall.1, base, types, hbase, htypes, hall.2⟩

/-- The type whose rules are made is declared. -/
theorem mem_names_of_rules {c : Catalog} {s : Settings} {root : String} {set : RuleSet}
    (h : c.rules s root = .ok set) : root ∈ c.types.names := by
  obtain ⟨_, _, types, _, htypes, _⟩ := mem_rules h
  rw [textTypes, ← remaining_nil, explore] at htypes
  simp only [List.any_nil, Bool.false_eq_true, if_false] at htypes
  obtain ⟨d, hd, _⟩ := Outcome.bind_eq_ok.mp htypes
  unfold get at hd
  split at hd
  · exact Table.mem_names_of_find ‹_›
  · cases hd

/-- **A rule that goes with a type** is that of a primitive type, or one of those of a declared
one. -/
theorem cases_of_mem_rules {c : Catalog} (hc : Resolved c.types) {s : Settings} {root : String}
    {set : RuleSet} (h : c.rules s root = .ok set) {r : Rule} (hr : r ∈ set.rules) :
    PrimitiveRule s r ∨
      ∃ d rs, c.types.find? d.fqn = some d ∧ c.rulesOf d = .ok rs ∧ r ∈ rs := by
  obtain ⟨_, base, types, hbase, htypes, hmem⟩ := mem_rules h
  obtain ⟨types', htypes', hreach⟩ := textTypes_spec hc (mem_names_of_rules h)
  cases htypes.symm.trans htypes'
  rcases hmem r hr with hr | ⟨d, hd, rs, hrs, hr⟩
  · exact .inl (primitiveRule_of_mem hbase hr)
  · exact .inr ⟨d, rs, ((hreach d).mp hd).1, hrs, hr⟩

/-- The rules of primitive types go with every type. -/
theorem base_subset_rules {c : Catalog} {s : Settings} {root : String} {set : RuleSet}
    (h : c.rules s root = .ok set) {base : List Rule} (hbase : primitiveRules s = .ok base) :
    base ⊆ set.rules := by
  obtain ⟨base', first, types, hbase', hfirst, _, hinduction⟩ := exists_of_rules h
  cases hbase.symm.trans hbase'
  have hrules : first.rules = base := rules_foldlM_add hfirst
  exact hinduction (fun t => base ⊆ t.rules) (by simp [hrules])
    fun d _ rs _ t ht _ => List.Subset.trans ht (subset_addAll t true rs)

/-- The rules of primitive types can be added one after the other. -/
theorem foldlM_primitiveRules {s : Settings} {w : Rule} (hdate : DateTime.rule s.dateFormat = .ok w) :
    ∃ base, primitiveRules s = .ok base ∧ base.foldlM RuleSet.add {} = .ok { rules := base } ∧
      RuleSet.WellFormed { rules := base } ∧
      RuleSet.names { rules := base } = primitiveRuleNames s ∧
      ∀ r ∈ base, r.Closed (· ∈ primitiveRuleNames s) := by
  obtain ⟨base, hbase, hnames, hclosed⟩ := primitiveRules_spec hdate
  have hnodup : (base.map Rule.name).Nodup := hnames ▸ nodup_primitiveRuleNames s
  have hfilled : ∀ r ∈ base, r.Filled := fun r hr => (hclosed r hr).filled
  refine ⟨base, hbase, ?_, ⟨hnodup, hfilled⟩, hnames, hclosed⟩
  simpa using RuleSet.foldlM_add (s := {}) (by simpa [RuleSet.names] using hnodup) hfilled

/-- **The rules of a type that another one leads to** refer to each other, to those of the types
that the other one leads to, or to the other one if it leads back to itself. They exist unless the
type is abstract and has no concrete subtype. -/
theorem rulesOf_reached {c : Catalog} (hc : Resolved c.types) (s : Settings) {root : String}
    {d : SchemaType} (hfind : c.types.find? d.fqn = some d)
    (hreached : Relation.ReflTransGen c.Leads root d.fqn) (hne : d.fqn ≠ root) :
    (∃ rs, c.rulesOf d = .ok rs ∧ rs.map Rule.name = ownRuleNames d ∧
      ∀ r ∈ rs, r.Filled ∧ r.Closed fun x => c.TypeRule s root x ∨ c.Recurs root x) ∨
    c.rulesOf d = .fail (.model (.noSubtypes d.fqn)) ∧ c.Childless d := by
  refine (rulesOf_spec hc s (mem_of_find_fqn hc hfind).1).imp_left ?_
  rintro ⟨rs, hrs, hnames, hclosed⟩
  refine ⟨rs, hrs, hnames, fun r hr => ⟨(hclosed r hr).filled, (hclosed r hr).mono fun x hx => ?_⟩⟩
  rcases hx with hx | hx
  · exact typeRule_of_referable hc hfind hreached hx
  · exact .inl (.inr ⟨d, hfind, hreached, hne, hx⟩)

/-- **The rules of the types that a type leads to** have the names that `TypeRule` gives, and
refer to each other, or to the type if it leads back to itself. They exist unless an abstract
type that it leads to has no concrete subtype. -/
theorem rules_cases {c : Catalog} (hc : Resolved c.types) {s : Settings} {w : Rule}
    (hdate : DateTime.rule s.dateFormat = .ok w) {root : String} (hroot : root ∈ c.types.names) :
    (∃ set, c.rules s root = .ok set ∧ set.WellFormed ∧
      (∀ x, x ∈ set.names ↔ c.TypeRule s root x) ∧
      ∀ r ∈ set.rules, r.Closed fun x => x ∈ set.names ∨ c.Recurs root x) ∨
    ∃ d, c.rules s root = .fail (.model (.noSubtypes d.fqn)) ∧
      c.types.find? d.fqn = some d ∧ Relation.ReflTransGen c.Leads root d.fqn ∧ d.fqn ≠ root ∧
      c.Childless d := by
  obtain ⟨base, hbase, hbaseSet, hbaseWell, hbaseNames, hbaseClosed⟩ := foldlM_primitiveRules hdate
  obtain ⟨types, htypes, hmem⟩ := textTypes_spec hc hroot
  have hrules : c.rules s root = (types.filter fun d => d.fqn != root).foldlM
      (fun set d => do addNew set (← c.rulesOf d)) { rules := base } := by
    rw [rules, hbase]
    simp only [bind, Except.bind, hbaseSet, htypes]
  have hfilter : ∀ d, d ∈ types.filter (fun d => d.fqn != root) ↔
      (c.types.find? d.fqn = some d ∧ Relation.ReflTransGen c.Leads root d.fqn) ∧ d.fqn ≠ root := by
    intro d
    rw [List.mem_filter, hmem d]
    simp
  have hds : ∀ d ∈ types.filter (fun d => d.fqn != root),
      (∃ rs, c.rulesOf d = .ok rs ∧ rs.map Rule.name = ownRuleNames d ∧
        ∀ r ∈ rs, r.Filled ∧ r.Closed fun x => c.TypeRule s root x ∨ c.Recurs root x) ∨
      ∃ f, c.rulesOf d = .error f ∧ ∃ d, f = { cause := .model (.noSubtypes d.fqn) } ∧
        c.types.find? d.fqn = some d ∧ Relation.ReflTransGen c.Leads root d.fqn ∧
        d.fqn ≠ root ∧ c.Childless d := by
    intro d hd
    obtain ⟨⟨hfind, hreached⟩, hne⟩ := (hfilter d).mp hd
    refine (rulesOf_reached hc s hfind hreached hne).imp_right ?_
    rintro ⟨hfail, hchildless⟩
    exact ⟨_, hfail, d, rfl, hfind, hreached, hne, hchildless⟩
  rw [hrules]
  rcases foldlM_addNew hbaseWell
    (fun r hr => (hbaseClosed r hr).mono fun x hx => .inl (.inl hx)) hds with
    ⟨set, hfold, hwell, hclosed, hnames⟩ | ⟨f, hfold, d, rfl, hd⟩
  · have hiff : ∀ x, x ∈ set.names ↔ c.TypeRule s root x := by
      intro x
      rw [hnames, hbaseNames]
      refine or_congr_right ⟨?_, ?_⟩
      · rintro ⟨d, hd, hx⟩
        obtain ⟨⟨hfind, hreached⟩, hne⟩ := (hfilter d).mp hd
        exact ⟨d, hfind, hreached, hne, hx⟩
      · rintro ⟨d, hfind, hreached, hne, hx⟩
        exact ⟨d, (hfilter d).mpr ⟨⟨hfind, hreached⟩, hne⟩, hx⟩
    exact .inl ⟨set, hfold, hwell, hiff, fun r hr =>
      (hclosed r hr).mono fun x hx => hx.imp_left (hiff x).mpr⟩
  · exact .inr ⟨d, hfold, hd⟩

/-- **The rules of the types that a type leads to**, where it does not lead back to itself and
abstract types have subtypes, exist and refer to each other only. -/
theorem rules_spec {c : Catalog} (hc : Resolved c.types) {s : Settings} {w : Rule}
    (hdate : DateTime.rule s.dateFormat = .ok w) {root : String} (hroot : root ∈ c.types.names)
    (hself : ¬ Relation.TransGen c.Leads root root)
    (habstract : ∀ d, c.types.find? d.fqn = some d → Relation.TransGen c.Leads root d.fqn →
      d.abstract = true → c.subtypes d.fqn ≠ []) :
    ∃ set, c.rules s root = .ok set ∧ set.WellFormed ∧
      (∀ x, x ∈ set.names ↔ c.TypeRule s root x) ∧
      ∀ r ∈ set.rules, r.Closed (· ∈ set.names) := by
  rcases rules_cases hc hdate hroot with
    ⟨set, hset, hwell, hnames, hclosed⟩ | ⟨d, _, hfind, hreached, hne, hchildless⟩
  · exact ⟨set, hset, hwell, hnames, fun r hr =>
      (hclosed r hr).mono fun x hx => hx.resolve_right fun h => hself h.2⟩
  · -- a type that is not the root is reached in at least one step
    have hreach : Relation.TransGen c.Leads root d.fqn :=
      (Relation.reflTransGen_iff_eq_or_transGen.mp hreached).resolve_left hne
    exact absurd hchildless.subtypes (habstract d hfind hreach hchildless.abstract)

end Catalog

end Covenant
