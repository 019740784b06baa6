import Covenant.Proofs.Schema.Lineage
import Covenant.Proofs.Schema.TypeRules

/-!
The rules of types in rule sets.

* `Catalog.TypedRules`: the rules of types in a rule set are those that the types give.
* `Catalog.Built.typedRules`: the rules that go with a type are of this kind.
* `Catalog.EnumsApart`: no enumeration extends an abstract type;
  `Catalog.Built.enumsApart`: it is enough that enumerations extend nothing.
-/

namespace Covenant

/-! ### Names -/

theorem Primitive.ofName_of_mem {T : String} {t : Primitive} (h : (T, t) ∈ names) :
    ofName? T = some t := by
  have hnodup : (Table.names names).Nodup := by decide
  exact (Table.find_eq_some_iff hnodup).mpr h

theorem Primitive.isName_of_mem {T : String} {t : Primitive} (h : (T, t) ∈ names) :
    isName T = true := by
  rw [isName, ofName_of_mem h]
  rfl

theorem Primitive.char_of_isName {T : String} (h : Primitive.isName T = true) :
    '.' ∉ T.toList ∧ '_' ∉ T.toList := by
  obtain ⟨t, ht⟩ := Option.isSome_iff_exists.mp h
  have hmem := Table.mem_of_find ht
  simp only [names, List.mem_cons, Prod.mk.injEq, List.not_mem_nil, or_false] at hmem
  rcases hmem with ⟨h, _⟩ | ⟨h, _⟩ | ⟨h, _⟩ | ⟨h, _⟩ | ⟨h, _⟩ | ⟨h, _⟩ <;> subst h <;> decide

theorem not_dotted_formatRuleName {type : String} (htype : '.' ∉ type.toList) (format : String) :
    '.' ∉ (formatRuleName type format).toList := by
  intro hc
  rcases char_of_formatRuleName hc with hc | hc | hc
  · exact htype hc
  · exact absurd hc (by decide)
  · exact absurd hc (by decide)

/-- The names of the rules of primitive types have no points in them. -/
theorem PrimitiveRule.not_dotted {s : Settings} {r : Rule} (h : PrimitiveRule s r) :
    '.' ∉ r.name.toList := by
  cases h with
  | pattern ht => exact (Primitive.char_of_isName (Primitive.isName_of_mem ht)).1
  | format hw =>
    rw [(DateTime.rule_spec hw).1]
    exact not_dotted_formatRuleName (by decide) _
  | date => exact (by decide : '.' ∉ "DateTime".toList)
  | any => exact (by decide : '.' ∉ anyRule.toList)

namespace Catalog

/-! ### The rules of types -/

def anyTextRule : Rule :=
  patternRule anyRule "[\\s\\S]+" "text"

/-- **The rules of types in a rule set** are those that the types give, and that of any text
is there as it is. Dates and amounts of money are left open. -/
structure TypedRules (c : Catalog) (set : RuleSet) : Prop where
  any : ∀ {r}, set.find? anyRule = some r → r = anyTextRule
  primitive : ∀ {T t regex action r}, Primitive.ofName? T = some t →
    t.pattern? = some (regex, action) → set.find? T = some r → r = patternRule T regex action
  declared : ∀ {d r}, c.types.find? d.fqn = some d → d.fqn ≠ Monetary.typeName →
    set.find? d.fqn = some r → c.rulesOf d = .ok [r]

/-- The names of declared types have points in them. -/
theorem Reached.dotted {c : Catalog} (hc : c.Reached) {T : String} (hT : T ∈ c.types.names) :
    '.' ∈ T.toList := by
  obtain ⟨e, he, rfl⟩ := List.mem_map.mp hT
  obtain ⟨f, _, t, _, hfqn, _⟩ := (hc.declared e he).type
  rw [← hc.sound.types.fqn e he, hfqn]
  exact qualified_dotted _ _

theorem Built.dotted {c : Catalog} (hc : c.Built) {T : String} (hT : T ∈ c.types.names) :
    '.' ∈ T.toList :=
  hc.reached.dotted hT

/-- A type other than amounts of money has one rule, which has its name. -/
theorem rulesOf_single {c : Catalog} {d : SchemaType} (hmoney : d.fqn ≠ Monetary.typeName)
    {rs : List Rule} (h : c.rulesOf d = .ok rs) : ∃ r, rs = [r] ∧ r.name = d.fqn := by
  unfold rulesOf at h
  split at h
  · cases h
    exact ⟨_, rfl, rfl⟩
  · split at h
    · obtain ⟨r, hr, rfl⟩ := Outcome.map_eq_ok.mp h
      obtain ⟨subtypes, _, hr⟩ := Outcome.bind_eq_ok.mp hr
      split at hr
      · cases hr
      · cases hr
        exact ⟨_, rfl, rfl⟩
    · cases h
      exact ⟨_, rfl, rfl⟩

/-- The rules of amounts of money are that of their format and their own. -/
theorem names_monetaryRules {d : SchemaType} {rs : List Rule} (h : d.monetaryRules = .ok rs) :
    ∀ r ∈ rs, r.name = formatRuleName "MonetaryAmount" Monetary.defaultFormat ∨ r.name = d.fqn := by
  obtain ⟨w, hw, h⟩ := Outcome.bind_eq_ok.mp h
  cases h
  simp only [List.forall_mem_cons, List.not_mem_nil, false_implies, implies_true, and_true]
  exact ⟨.inl (Monetary.rule_spec hw).1, .inr rfl⟩

/-- The rules of a type have its name, or that of a format. -/
theorem name_of_rulesOf {c : Catalog} {d : SchemaType} {rs : List Rule}
    (h : c.rulesOf d = .ok rs) {r : Rule} (hr : r ∈ rs) :
    r.name = d.fqn ∨ r.name = formatRuleName "MonetaryAmount" Monetary.defaultFormat := by
  by_cases hmoney : d.fqn = Monetary.typeName
  · unfold rulesOf at h
    split at h
    · cases h
      exact .inl (by rw [List.mem_singleton.mp hr]; rfl)
    · exact (names_monetaryRules h r hr).symm
  · obtain ⟨q, rfl, hq⟩ := rulesOf_single hmoney h
    exact .inl (List.mem_singleton.mp hr ▸ hq)

theorem anyTextRule_mem {s : Settings} {base : List Rule} (h : primitiveRules s = .ok base) :
    anyTextRule ∈ base := by
  obtain ⟨dates, _, h⟩ := Outcome.bind_eq_ok.mp h
  cases h
  exact List.mem_append_right _ (List.mem_singleton.mpr rfl)

/-- Every primitive type with a pattern has its rule. -/
theorem patternRule_mem {s : Settings} {base : List Rule} (h : primitiveRules s = .ok base)
    {T regex action : String} {t : Primitive} (ht : Primitive.ofName? T = some t)
    (hpattern : t.pattern? = some (regex, action)) : patternRule T regex action ∈ base := by
  obtain ⟨dates, _, h⟩ := Outcome.bind_eq_ok.mp h
  cases h
  refine List.mem_append_left _ (List.mem_append_left _ ?_)
  exact List.mem_filterMap.mpr ⟨(T, t), Table.mem_of_find ht, by simp [hpattern]⟩

/-- A rule that goes with a type, but has no point and no underscore in its name, is that of a
primitive type. -/
theorem Built.primitiveRule {c : Catalog} (hc : c.Built) {s : Settings} {root : String}
    {set : RuleSet} (h : c.rules s root = .ok set) {r : Rule} (hr : r ∈ set.rules)
    (hpoint : '.' ∉ r.name.toList) (hline : '_' ∉ r.name.toList) : PrimitiveRule s r := by
  rcases cases_of_mem_rules hc.sound.types h hr with hr | ⟨d, rs, hd, hrs, hr⟩
  · exact hr
  · rcases name_of_rulesOf hrs hr with heq | heq
    · exact absurd (heq ▸ hc.dotted (Table.mem_names_of_find hd)) hpoint
    · exact absurd (heq ▸ mem_formatRuleName _ _) hline

/-- **The rules that go with a type** are those of the types. -/
theorem Built.typedRules {c : Catalog} (hc : c.Built) {s : Settings} {root : String} {set : RuleSet}
    (h : c.rules s root = .ok set) : c.TypedRules set := by
  have hwell := (mem_rules h).1
  constructor
  · intro r hfind
    obtain ⟨hr, hname⟩ := hwell.find_eq_some_iff.mp hfind
    cases hc.primitiveRule h hr (hname ▸ by decide) (hname ▸ by decide) with
    | pattern ht =>
      obtain rfl : _ = anyRule := hname
      exact absurd ht (by simp [Primitive.names, anyRule])
    | format hw =>
      have hline := mem_formatRuleName "DateTime" s.dateFormat
      rw [← (DateTime.rule_spec hw).1, hname] at hline
      exact absurd hline (by decide)
    | date => exact absurd (show "DateTime" = anyRule from hname) (by decide)
    | any => rfl
  · intro T t regex action r ht hpattern hfind
    obtain ⟨hr, hname⟩ := hwell.find_eq_some_iff.mp hfind
    have hisName : Primitive.isName T = true := by rw [Primitive.isName, ht]; rfl
    obtain ⟨hpoint, hline⟩ := Primitive.char_of_isName hisName
    cases hc.primitiveRule h hr (hname ▸ hpoint) (hname ▸ hline) with
    | pattern ht' hpattern' =>
      obtain rfl : _ = T := hname
      cases ht.symm.trans (Primitive.ofName_of_mem ht')
      cases hpattern.symm.trans hpattern'
      rfl
    | format hw =>
      rw [← hname, (DateTime.rule_spec hw).1] at hline
      exact absurd (mem_formatRuleName _ _) hline
    | date =>
      obtain rfl : "DateTime" = T := hname
      cases ht
      cases hpattern
    | any =>
      obtain rfl : anyRule = T := hname
      cases ht
  · intro d r hd hmoney hfind
    obtain ⟨hr, hname⟩ := hwell.find_eq_some_iff.mp hfind
    have hdot := hc.dotted (Table.mem_names_of_find hd)
    rw [← hname] at hdot
    rcases cases_of_mem_rules hc.sound.types h hr with hr | ⟨d', rs, hd', hrs, hr⟩
    · exact absurd hdot hr.not_dotted
    · rcases name_of_rulesOf hrs hr with heq | heq
      · rw [← heq, hname, hd, Option.some.injEq] at hd'
        subst hd'
        obtain ⟨q, rfl, _⟩ := rulesOf_single hmoney hrs
        rwa [List.mem_singleton.mp hr]
      · exact absurd (heq ▸ hdot) (not_dotted_formatRuleName (by decide) _)

/-! ### Types and properties -/

def IsType (c : Catalog) (T : String) : Prop :=
  Primitive.isName T = true ∨ T ∈ c.types.names

section

variable {c : Catalog}

theorem Built.ofName_eq_none (hc : c.Built) {T : String} (hT : T ∈ c.types.names) :
    Primitive.ofName? T = none := by
  by_contra hne
  have hisName : Primitive.isName T = true := Option.isSome_iff_ne_none.mpr hne
  exact (Primitive.char_of_isName hisName).1 (hc.dotted hT)

/-- The names of a type's properties differ from each other and from the key of types. -/
theorem Built.nodup_keys (hc : c.Built) {d : SchemaType} (hd : c.types.find? d.fqn = some d) :
    (classKey :: d.properties.map Property.name).Nodup :=
  hc.reached.nodup_keys hd

theorem Built.isType_ruleName (hc : c.Built) {d : SchemaType} (hd : c.types.find? d.fqn = some d)
    {p : Property} (hp : p ∈ d.properties) : c.IsType p.ruleName := by
  unfold Property.ruleName
  split
  · exact .inl rfl
  · by_cases hprimitive : Primitive.isName p.type = true
    · exact .inl hprimitive
    · exact .inr (hc.sound.types.targets _ (Table.mem_of_find hd) p hp
        (by simpa [Property.isPrimitive] using hprimitive))

/-- The rule of a concept. -/
theorem TypedRules.concept {set : RuleSet} (hset : c.TypedRules set) {d : SchemaType}
    (hd : c.types.find? d.fqn = some d) (hmoney : d.fqn ≠ Monetary.typeName)
    (henum : d.isEnum = false) (habstract : d.abstract = false) {r : Rule}
    (hfind : set.find? d.fqn = some r) : r = d.conceptRule := by
  have hr := hset.declared hd hmoney hfind
  rw [rulesOf, if_neg (by simp [henum]), if_neg hmoney, if_neg (by simp [habstract]),
    Except.ok.injEq, List.singleton_inj] at hr
  exact hr.symm

def EnumsApart (c : Catalog) : Prop :=
  ∀ d, c.types.find? d.fqn = some d → d.abstract = true → ∀ t ∈ c.subtypes d.fqn, t.isEnum = false

/-- A type below another extends some type. -/
theorem super_ne_none_of_mem_subtypes (hc : c.Built) {base : String} {t : SchemaType}
    (ht : t ∈ c.subtypes base) : t.super? ≠ none := by
  intro hsuper
  obtain ⟨htypes, _⟩ := mem_subtypes ht
  obtain ⟨_, hbelow⟩ := List.mem_filter.mp ht
  simp only [Bool.and_eq_true, Bool.not_eq_true', Bool.or_eq_false_iff, decide_eq_false_iff_not]
    at hbelow
  obtain ⟨⟨hne, _⟩, hbelow⟩ := hbelow
  -- the chain of supertypes is the type itself
  have hchain : c.chain t.fqn = .ok [t.fqn] := by
    rw [Catalog.chain, Resolve.chain, find_of_mem hc.sound.types htypes]
    simp only [hsuper]
    rw [Resolve.chainFrom]
  rw [isBelow, isSubtype, hchain] at hbelow
  simp only [Except.map, List.contains_cons, List.contains_nil, Bool.or_false, beq_iff_eq] at hbelow
  exact hne hbelow.symm

/-- Amounts of money extend no type. -/
theorem Built.subtypes_not_monetary (hc : c.Built) {base : String} {t : SchemaType}
    (ht : t ∈ c.subtypes base) : t.fqn ≠ Monetary.typeName := by
  intro hmoney
  obtain ⟨⟨e, he, rfl⟩, _⟩ := mem_subtypes ht
  exact super_ne_none_of_mem_subtypes hc ht (hc.super_monetary he hmoney)

/-- Enumerations that extend no type at all extend no abstract type. -/
theorem Built.enumsApart (hc : c.Built) (h : ∀ f ∈ c.files, ∀ t ∈ f.model.declarations,
    t.kind = .enumeration → t.extends? = none) : c.EnumsApart := by
  intro d _ _ t ht
  obtain ⟨⟨e, he, rfl⟩, _⟩ := mem_subtypes ht
  obtain ⟨f, hf, t', ht', _, _, hkind, hsuper⟩ := (hc.declared e he).type
  by_contra henum
  have hkind' : e.2.kind = .enumeration := by simpa [SchemaType.isEnum] using henum
  exact super_ne_none_of_mem_subtypes hc ht (hsuper (h f hf t' ht' (hkind.symm.trans hkind')))

end

end Catalog

end Covenant
