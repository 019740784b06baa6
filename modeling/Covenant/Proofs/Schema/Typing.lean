import Covenant.Proofs.Schema.FormatRules
import Covenant.Proofs.Schema.Violations
import Covenant.Proofs.Schema.Written

/-!
Values of types.

* `Catalog.Typed`: a value is one of a type, with every required property and no other than
  the type has. What is asked of dates and amounts of money beyond that is a parameter.
* `Catalog.Typed.admitted`: checking finds nothing in such a value.
* `Catalog.TypedRules.typed`: the rules of types read such values, but for the types that lead
  to an abstract one. A value of an abstract type names a subtype, which checking refuses.
-/

namespace Covenant

/-! ### Primitive types -/

/-- The values that a primitive type has where they are read. -/
def Primitive.Holds : Primitive → Value → Prop
  | .string, v | .dateTime, v => ∃ t, v = .text t
  | .boolean, v => ∃ b, v = .bool b
  | .integer, v | .long, v => ∃ n, v = .int n
  | .double, v => ∃ x, v = .double x

theorem Primitive.admits_of_holds {t : Primitive} {v : Value} (h : t.Holds v) :
    t.admits v = true := by
  cases t <;> obtain ⟨_, rfl⟩ := h <;> rfl

theorem Primitive.not_null_of_holds {t : Primitive} {v : Value} (h : t.Holds v) :
    v.isNull = false := by
  cases t <;> obtain ⟨_, rfl⟩ := h <;> rfl

namespace Catalog

/-! ### Types -/

/-- **A value is one of a type**: of the kind of a primitive type, a text of an enumeration, or
an object that names its type, has every required property, and has nothing but values of the
properties. Dates and amounts of money are those that `leaf` holds of. -/
inductive Typed (c : Catalog) (leaf : String → Value → Prop) : String → Value → Prop where
  | primitive {T : String} {t : Primitive} {v : Value} (ht : Primitive.ofName? T = some t)
      (hv : t.Holds v) (hleaf : t = .dateTime → leaf T v) : Typed c leaf T v
  | enum {d : SchemaType} {t : String} (hd : c.types.find? d.fqn = some d)
      (henum : d.isEnum = true) (ht : t ∈ d.values) : Typed c leaf d.fqn (.text t)
  | object {d : SchemaType} {fields : List (String × Value)}
      (hd : c.types.find? d.fqn = some d) (henum : d.isEnum = false) (habstract : d.abstract = false)
      (hclass : Table.find? fields classKey = some (.text d.fqn))
      (hrequired : ∀ p ∈ d.properties, p.optional = false → p.name ∈ Table.names fields)
      (hdeclared : ∀ n ∈ Table.names fields, n = classKey ∨ n ∈ d.properties.map Property.name)
      (hlist : ∀ p ∈ d.properties, p.array = true → ∀ v, Table.find? fields p.name = some v →
        ∃ vs, v = .list vs)
      (hmember : ∀ p ∈ d.properties, p.array = true → ∀ vs,
        Table.find? fields p.name = some (.list vs) → ∀ w ∈ vs, Typed c leaf p.ruleName w)
      (hsingle : ∀ p ∈ d.properties, p.array = false → ∀ v,
        Table.find? fields p.name = some v → Typed c leaf p.ruleName v)
      (hleaf : d.fqn = Monetary.typeName → leaf d.fqn (.object fields)) :
      Typed c leaf d.fqn (.object fields)

/-- A value of a property: a list of values of its type for an array, and one value
otherwise. -/
def TypedAs (c : Catalog) (leaf : String → Value → Prop) (p : Property) (v : Value) : Prop :=
  if p.array then ∃ vs, v = .list vs ∧ ∀ w ∈ vs, c.Typed leaf p.ruleName w
  else c.Typed leaf p.ruleName v

/-- One of the values that a property has: a member of its list for an array, and its only
value otherwise. -/
def OneOf (p : Property) (v w : Value) : Prop :=
  if p.array then ∃ vs, v = .list vs ∧ w ∈ vs else w = v

/-- The entries of an object of a type. -/
structure TypedEntries (c : Catalog) (leaf : String → Value → Prop) (d : SchemaType)
    (fields : List (String × Value)) : Prop where
  type : Table.find? fields classKey = some (.text d.fqn)
  property : ∀ p ∈ d.properties, ∀ v, Table.find? fields p.name = some v → c.TypedAs leaf p v
  required : ∀ p ∈ d.properties, p.optional = false → p.name ∈ Table.names fields
  declared : ∀ n ∈ Table.names fields, n = classKey ∨ n ∈ d.properties.map Property.name

def Admits (c : Catalog) (T : String) (v : Value) : Prop :=
  match Primitive.ofName? T with
  | some t => t.admits v = true
  | none => c.typeViolations v T = []

def Concrete (c : Catalog) (T : String) : Prop :=
  ∀ d, c.types.find? d.fqn = some d → Relation.ReflTransGen c.Leads T d.fqn →
    d.abstract = true → d.isEnum = true

section

variable {c : Catalog} {leaf : String → Value → Prop} {T : String} {v : Value}

theorem typedAs_array {p : Property} (harray : p.array = true) :
    c.TypedAs leaf p v ↔ ∃ vs, v = .list vs ∧ ∀ w ∈ vs, c.Typed leaf p.ruleName w := by
  rw [TypedAs, if_pos harray]

theorem typedAs_single {p : Property} (harray : p.array = false) :
    c.TypedAs leaf p v ↔ c.Typed leaf p.ruleName v := by
  rw [TypedAs, if_neg (by simp [harray])]

theorem TypedEntries.typed {d : SchemaType} {fields : List (String × Value)}
    (h : c.TypedEntries leaf d fields) (hd : c.types.find? d.fqn = some d)
    (henum : d.isEnum = false) (habstract : d.abstract = false)
    (hleaf : d.fqn = Monetary.typeName → leaf d.fqn (.object fields)) :
    c.Typed leaf d.fqn (.object fields) := by
  refine .object hd henum habstract h.type h.required h.declared (fun p hp harray v hv => ?_)
    (fun p hp harray vs hvs => ?_)
    (fun p hp harray v hv => (typedAs_single harray).mp (h.property p hp v hv)) hleaf
  · obtain ⟨vs, rfl, _⟩ := (typedAs_array harray).mp (h.property p hp v hv)
    exact ⟨vs, rfl⟩
  · obtain ⟨vs', heq, hall⟩ := (typedAs_array harray).mp (h.property p hp _ hvs)
    cases heq
    exact hall

/-! ### Checking -/

/-- What checking asks of one value of a property. -/
theorem fitsOne_iff {p : Property} : c.FitsOne p v ↔ c.Admits p.ruleName v := by
  unfold FitsOne Inspection.valueViolations Admits Property.ruleName
  by_cases hrelationship : p.relationship = true
  · rw [if_pos hrelationship, if_pos hrelationship]
    exact Primitive.violations_eq_nil_iff
  · rw [if_neg hrelationship, if_neg hrelationship]
    cases Primitive.ofName? p.type with
    | some t => exact Primitive.violations_eq_nil_iff
    | none => exact Iff.rfl

theorem admits_declared (hc : c.Built) (hT : T ∈ c.types.names) :
    c.Admits T v ↔ c.typeViolations v T = [] := by
  rw [Admits, hc.ofName_eq_none hT]

/-- A property may have what checking finds nothing in. -/
theorem fits_of_typedAs {p : Property}
    (hadmitted : ∀ w, c.Typed leaf p.ruleName w → c.Admits p.ruleName w)
    (h : c.TypedAs leaf p v) : c.Fits p v := by
  refine .inr ?_
  cases harray : p.array with
  | true =>
    obtain ⟨vs, rfl, hall⟩ := (typedAs_array harray).mp h
    exact ⟨vs, rfl, fun w hw => fitsOne_iff.mpr (hadmitted w (hall w hw))⟩
  | false => exact fitsOne_iff.mpr (hadmitted v ((typedAs_single harray).mp h))

/-- **Checking finds nothing in a value of a type.** -/
theorem Typed.admitted (hc : c.Built) (h : c.Typed leaf T v) : c.Admits T v := by
  induction h with
  | primitive ht hv => simpa [Admits, ht] using Primitive.admits_of_holds hv
  | enum hd henum ht =>
    exact (admits_declared hc (Table.mem_names_of_find hd)).mpr
      ((typeViolations_enum_iff hd henum).mpr ⟨_, ht, rfl⟩)
  | @object d fields hd henum _ hclass hrequired hdeclared hlist _ _ _ ihmember ihsingle =>
    refine (admits_declared hc (Table.mem_names_of_find hd)).mpr
      ((typeViolations_object_iff hd henum).mpr ⟨_, rfl, hclass, ?_, hrequired, hdeclared⟩)
    intro p hp w hw
    refine .inr ?_
    cases harray : p.array with
    | true =>
      obtain ⟨vs, rfl⟩ := hlist p hp harray w hw
      exact ⟨vs, rfl, fun w' hw' => fitsOne_iff.mpr (ihmember p hp harray vs hw w' hw')⟩
    | false => exact fitsOne_iff.mpr (ihsingle p hp harray w hw)

/-- **Checking finds nothing in the entries of a type.** -/
theorem TypedEntries.conforms (hc : c.Built) {d : SchemaType} {fields : List (String × Value)}
    (h : c.TypedEntries leaf d fields) : c.Conforms d fields :=
  ⟨h.type, fun p hp v hv => fits_of_typedAs (fun _ hw => hw.admitted hc) (h.property p hp v hv),
    h.required, h.declared⟩

theorem Typed.not_null (h : c.Typed leaf T v) : v.isNull = false := by
  cases h with
  | primitive _ hv => exact Primitive.not_null_of_holds hv
  | enum => rfl
  | object => rfl

theorem TypedAs.not_null {p : Property} (h : c.TypedAs leaf p v) : v.isNull = false := by
  cases harray : p.array with
  | true =>
    obtain ⟨vs, rfl, _⟩ := (typedAs_array harray).mp h
    rfl
  | false => exact ((typedAs_single harray).mp h).not_null

/-! ### Rules -/

variable {s : Settings} {set : RuleSet} {ctx : ReadingContext}

/-- Dates and amounts of money that are read in some format are such that `leaf` holds of
them. -/
def LeavesRead (ctx : ReadingContext) (leaf : String → Value → Prop) : Prop :=
  ∀ {T k format r text v}, Formatted.ofType? T = some k → k ≠ .amount →
    Formatted.rule k format = .ok r → k.read text format ctx = .ok v → leaf T v

theorem DefaultFormat.type {k : Formatted} {f : String} (h : DefaultFormat s T k f) :
    Formatted.ofType? T = some k ∧ k ≠ .amount := by
  cases h <;> decide

/-- The values of primitive types other than dates. -/
theorem TypedRules.primitive_value (hset : c.TypedRules set) {t : Primitive}
    (ht : Primitive.ofName? T = some t) (hdate : t ≠ .dateTime) {cs : List Char} {e : Derivation}
    (h : Derives set (.rule T) cs e) (hv : e.evaluate set ctx = .ok v) : t.Holds v := by
  obtain ⟨r, _, _, _, hfind, _⟩ := derives_rule_iff.mp h
  cases t with
  | string =>
    obtain rfl := hset.primitive ht rfl hfind
    obtain ⟨haccepts, hrun⟩ := patternRule_value hfind h hv
    obtain ⟨rest, rfl⟩ := quote_of_accepts haccepts
    exact text_of_readJson hrun
  | integer | long =>
    obtain rfl := hset.primitive ht rfl hfind
    obtain ⟨n, _, rfl⟩ := Outcome.map_eq_ok.mp (patternRule_value hfind h hv).2
    exact ⟨n, rfl⟩
  | double =>
    obtain rfl := hset.primitive ht rfl hfind
    obtain ⟨x, _, rfl⟩ := Outcome.map_eq_ok.mp (patternRule_value hfind h hv).2
    exact ⟨x, rfl⟩
  | boolean =>
    obtain rfl := hset.primitive ht rfl hfind
    exact ⟨_, (Except.ok.inj (patternRule_value hfind h hv).2).symm⟩
  | dateTime => exact absurd rfl hdate

/-- **Dates and amounts of money** are read in some format. -/
theorem FormatRules.default_value (hformats : FormatRules s set) {k : Formatted} {f : String}
    (hdefault : DefaultFormat s T k f) {cs : List Char} {e : Derivation}
    (h : Derives set (.rule T) cs e) (hv : e.evaluate set ctx = .ok v) :
    ∃ format r text, k.rule format = .ok r ∧ k.read text format ctx = .ok v := by
  obtain ⟨r, _, _, _, hfind, _⟩ := derives_rule_iff.mp h
  obtain ⟨⟨halternatives, haction⟩, horigin⟩ := hformats.passes hdefault hfind
  obtain ⟨q, alternative, ds, vs, rfl, hq, hds, hvs, happly⟩ := Derivation.node_of_derives h hv hfind
  rw [halternatives] at hq
  obtain rfl := List.mem_singleton.mp (List.mem_of_getElem? hq)
  obtain ⟨e, rfl, he⟩ := derivesAll_singleton_iff.mp hds
  obtain ⟨w, hw, rfl⟩ := Derivation.evaluateAll_singleton_eq_ok.mp hvs
  rw [Rule.apply, haction] at happly
  obtain rfl : w = v := Except.ok.inj happly
  obtain ⟨q, _, _, _, hfind', _⟩ := derives_rule_iff.mp he
  obtain ⟨format, hformat⟩ := hformats.format hfind' (horigin q hfind')
  obtain ⟨text, htext⟩ := Formatted.value_of_derives hformat hfind' he hw
  exact ⟨format, q, text, hformat, htext⟩

/-- What an amount of money is read as. -/
theorem read_monetary {text format : String} (h : Monetary.read text format = .ok v) :
    ∃ x code, v = .object [(classKey, .text Monetary.typeName), ("doubleValue", .double x),
      ("currencyCode", .text code)] := by
  obtain ⟨f, _, h⟩ := Outcome.bind_eq_ok.mp h
  split at h
  · cases h
  · obtain ⟨x, _, h⟩ := Outcome.bind_eq_ok.mp h
    cases h
    exact ⟨x, _, rfl⟩

/-- **An amount of money** is a value of its type. -/
theorem typed_monetary (hc : c.Built) {d : SchemaType} (hd : c.types.find? d.fqn = some d)
    (hmoney : d.fqn = Monetary.typeName) {text format : String}
    (h : Monetary.read text format = .ok v) (hleaf : leaf d.fqn v) : c.Typed leaf d.fqn v := by
  obtain ⟨_, henum, habstract, hproperties⟩ := hc.monetary_spec (hmoney ▸ hd)
  obtain ⟨x, code, rfl⟩ := read_monetary h
  refine TypedEntries.typed ⟨by rw [hmoney]; rfl, ?_, ?_, ?_⟩ hd henum habstract fun _ => hleaf
  · rw [hproperties]
    intro p hp w hw
    simp only [moneyProperties, List.mem_cons, List.not_mem_nil, or_false] at hp
    rcases hp with rfl | rfl
    · cases hw
      exact .primitive (t := .double) rfl ⟨x, rfl⟩ (by simp)
    · cases hw
      exact .primitive (t := .string) rfl ⟨code, rfl⟩ (by simp)
  · simp [hproperties, moneyProperties, Table.names]
  · simp [hproperties, moneyProperties, Table.names]

/-- **What is read in a format** is a value of the type that the format is for. -/
theorem typed_of_read (hc : c.Built) (hT : c.IsType T) {k : Formatted}
    (hk : Formatted.ofType? T = some k) {text format : String} (h : k.read text format ctx = .ok v)
    (hleaf : k ≠ .amount → leaf T v) : c.Typed leaf T v := by
  unfold Formatted.ofType? at hk
  split at hk
  · rename_i hdate
    cases hk
    obtain ⟨t, _, rfl⟩ := Outcome.map_eq_ok.mp h
    exact .primitive (t := .dateTime) (hdate ▸ rfl) ⟨t, rfl⟩ fun _ => hleaf (by simp)
  split at hk
  · rename_i hdouble
    cases hk
    obtain ⟨x, _, rfl⟩ := Outcome.map_eq_ok.mp h
    exact .primitive (t := .double) (hdouble ▸ rfl) ⟨x, rfl⟩ (by simp)
  split at hk
  · rename_i hmoney
    cases hk
    rcases hT with hT | hT
    · rw [hmoney] at hT
      exact absurd hT (by decide)
    · obtain ⟨d, hd⟩ := Table.exists_find hT
      obtain ⟨_, rfl⟩ := mem_of_find_fqn hc.sound.types hd
      exact typed_monetary hc hd hmoney h (hleaf (by simp))
  · cases hk

/-- **The value of a property** as its rule reads it is null, for an optional one, or made of
values of its type. -/
theorem typedAs_of_derives {p : Property} {target : String} {e : Derivation} {cs : List Char}
    (h : Derives set (.rule target p.cardinality) cs e) (hv : e.evaluate set ctx = .ok v)
    (hone : ∀ e' ∈ e.within, ∀ cs w, Derives set (.rule target) cs e' →
      e'.evaluate set ctx = .ok w → OneOf p v w → c.Typed leaf p.ruleName w) :
    (p.array = false ∧ p.optional = true ∧ v = .null) ∨ c.TypedAs leaf p v := by
  rcases derives_cardinality h hv with ⟨harray, n, ds, vs, hds, rfl, hvs, rfl⟩ |
    ⟨harray, hoptional, _, rfl⟩ | ⟨harray, h⟩
  · refine .inr ((typedAs_array harray).mpr ⟨_, rfl, fun w hw => ?_⟩)
    obtain ⟨cs, e', he', hd, hw'⟩ := exists_of_derivesAll_replicate hds hvs hw
    exact hone e' (Derivation.within_subset_many he' e'.self_mem_within) cs w hd hw'
      (by rw [OneOf, if_pos harray]; exact ⟨_, rfl, hw⟩)
  · exact .inl ⟨harray, hoptional, rfl⟩
  · exact .inr ((typedAs_single harray).mpr (hone e e.self_mem_within cs v h hv
      (by rw [OneOf, if_neg (by simp [harray])])))

/-- What checking finds nothing in has no values that it finds anything in. -/
theorem admits_of_oneOf {p : Property} {w : Value} (h : c.Fits p v) (hnull : v.isNull = false)
    (hw : OneOf p v w) : c.Admits p.ruleName w := by
  rw [← fitsOne_iff]
  rcases h with ⟨_, hnull'⟩ | h
  · rw [hnull] at hnull'
    cases hnull'
  · unfold OneOf at hw
    split at h
    · rename_i harray
      obtain ⟨vs, rfl, hall⟩ := h
      rw [if_pos harray] at hw
      obtain ⟨_, heq, hmem⟩ := hw
      cases heq
      exact hall w hmem
    · rename_i harray
      rw [if_neg harray] at hw
      exact hw ▸ h

/-- Primitive types lead to no type at all. -/
theorem concrete_primitive (hc : c.Built) (hT : Primitive.isName T = true) : c.Concrete T := by
  have hnone : ∀ e, c.types.find? T ≠ some e := by
    intro e he
    rw [Primitive.isName, hc.ofName_eq_none (Table.mem_names_of_find he)] at hT
    cases hT
  intro e he hreach
  rcases Relation.ReflTransGen.cases_head hreach with rfl | ⟨y, ⟨e', he', _⟩, _⟩
  · exact absurd he (hnone e)
  · exact absurd he' (hnone e')

/-- The types of the properties of a type that leads to no abstract type. -/
theorem Concrete.property (hc : c.Built) {d : SchemaType} (h : c.Concrete d.fqn)
    (hd : c.types.find? d.fqn = some d) {p : Property} (hp : p ∈ d.properties) :
    c.Concrete p.ruleName := by
  cases hrelationship : p.relationship with
  | true => exact concrete_primitive hc (by rw [Property.ruleName, if_pos hrelationship]; rfl)
  | false =>
    have hname : p.ruleName = p.type := by simp [Property.ruleName, hrelationship]
    rw [hname]
    cases hprimitive : p.isPrimitive with
    | true => exact concrete_primitive hc hprimitive
    | false =>
      have htarget : p.target? = some p.type := by
        simp [Property.target?, hprimitive, hrelationship]
      have hleads : c.Leads d.fqn p.type :=
        ⟨d, hd, List.mem_append_right _ (List.mem_filterMap.mpr ⟨p, hp, htarget⟩)⟩
      exact fun e he hreach => h e he (.head hleads hreach)

/-- **The entries that the rule of a concept reads** are those of its type. -/
theorem typedEntries_concept {d : SchemaType}
    (hkeys : (classKey :: d.properties.map Property.name).Nodup) {es : List (Property × Value)}
    (hes : d.properties = es.map Prod.fst)
    (h : ∀ x ∈ es, (x.1.optional = true ∧ x.2 = .null) ∨
      (x.2.isNull = false ∧ c.TypedAs leaf x.1 x.2)) :
    c.TypedEntries leaf d (conceptFields d es) := by
  have hkeys' : (classKey :: es.map fun e => e.1.name).Nodup := by
    simpa [hes, Function.comp_def] using hkeys
  obtain ⟨hclass, hfind⟩ := find_conceptFields (d := d) hkeys'
  refine ⟨hclass, fun p hp v hv => ?_, fun p hp hrequired => ?_, fun n hn => ?_⟩
  · obtain ⟨x, hx, rfl⟩ := List.mem_map.mp (hes ▸ hp)
    rw [hfind x hx] at hv
    split at hv
    · cases hv
    · rename_i hnull
      cases hv
      rcases h x hx with ⟨_, hx⟩ | ⟨_, htyped⟩
      · rw [hx] at hnull
        exact absurd rfl hnull
      · exact htyped
  · obtain ⟨x, hx, rfl⟩ := List.mem_map.mp (hes ▸ hp)
    rcases h x hx with ⟨hoptional, _⟩ | ⟨hnull, _⟩
    · rw [hrequired] at hoptional
      cases hoptional
    · refine Table.mem_names_of_find (v := x.2) ?_
      rw [hfind x hx, if_neg (by simp [hnull])]
  · obtain ⟨x, hx, rfl⟩ := List.mem_map.mp hn
    rcases List.mem_cons.mp (List.mem_filter.mp hx).1 with rfl | hx
    · exact .inl rfl
    · obtain ⟨y, hy, rfl⟩ := List.mem_map.mp hx
      exact .inr (hes ▸ List.mem_map_of_mem (f := Property.name) (List.mem_map_of_mem hy))

/-- **What checking refuses**: a value that the rule of an abstract type has read names one
of its subtypes. -/
theorem TypedRules.not_admits_abstract (hc : c.Built) (hset : c.TypedRules set) {d : SchemaType}
    (hd : c.types.find? d.fqn = some d) (hmoney : d.fqn ≠ Monetary.typeName)
    (henum : d.isEnum = false) (habstract : d.abstract = true) {cs : List Char} {e : Derivation}
    (h : Derives set (.rule d.fqn) cs e) (hv : e.evaluate set ctx = .ok v) :
    ¬ c.Admits d.fqn v := by
  intro hadmits
  obtain ⟨fields, rfl, hconforms⟩ := (typeViolations_object_iff hd henum).mp
    ((admits_declared hc (Table.mem_names_of_find hd)).mp hadmits)
  obtain ⟨_, t, ht, e', _, he', hw⟩ := hset.abstract_value hc hd hmoney henum habstract h hv
  obtain ⟨htypes, htabstract⟩ := mem_subtypes ht
  have htfind := find_of_mem hc.sound.types htypes
  have htmoney := hc.subtypes_not_monetary ht
  by_cases htenum : t.isEnum = true
  · cases (hset.enum_value htfind htmoney htenum he' hw).1
  · obtain ⟨_, es, _, hkeys, heq, _⟩ :=
      hset.concept_value hc htfind htmoney (by simpa using htenum) htabstract he' hw
    cases heq
    have hclass := hconforms.type.symm.trans (find_conceptFields (d := t) hkeys).1
    simp only [Option.some.injEq, Value.text.injEq] at hclass
    rw [hclass, htfind, Option.some.injEq] at hd
    rw [hd, habstract] at htabstract
    cases htabstract

/-- **What the rule of a concept reads** is a value of the concept, if what it is made of are values
of their types. -/
theorem TypedRules.typed_concept (hc : c.Built) (hset : c.TypedRules set) {d : SchemaType}
    (hd : c.types.find? d.fqn = some d) (hmoney : d.fqn ≠ Monetary.typeName)
    (henum : d.isEnum = false) (habstract : d.abstract = false) {cs : List Char} {e : Derivation}
    (hinside : ∀ e' ∈ e.inside, ∀ {T cs w}, c.IsType T → Derives set (.rule T) cs e' →
      e'.evaluate set ctx = .ok w → c.Concrete T ∨ c.Admits T w → c.Typed leaf T w)
    (h : Derives set (.rule d.fqn) cs e) (hv : e.evaluate set ctx = .ok v)
    (hsound : c.Concrete d.fqn ∨ c.Admits d.fqn v) : c.Typed leaf d.fqn v := by
  obtain ⟨_, es, hes, hkeys, rfl, hparts⟩ := hset.concept_value hc hd hmoney henum habstract h hv
  have hsound : c.Concrete d.fqn ∨ c.Conforms d (conceptFields d es) := by
    refine hsound.imp_right fun hadmits => ?_
    obtain ⟨_, heq, hconforms⟩ := (typeViolations_object_iff hd henum).mp
      ((admits_declared hc (Table.mem_names_of_find hd)).mp hadmits)
    cases heq
    exact hconforms
  have hfind := (@find_conceptFields d es hkeys).2
  refine (typedEntries_concept (hc.nodup_keys hd) hes fun x hx => ?_).typed hd henum habstract
    fun h => absurd h hmoney
  obtain ⟨cs, e', _, hd', hwithin, hw⟩ := hparts x hx
  have hp : x.1 ∈ d.properties := hes ▸ List.mem_map_of_mem hx
  by_cases hnull : x.2.isNull = true
  -- only an optional property has nothing
  · cases hoptional : x.1.optional with
    | true => exact .inl ⟨rfl, Value.isNull_iff.mp hnull⟩
    | false =>
      rcases hsound with hconcrete | hconforms
      · rcases @typedAs_of_derives c leaf _ _ _ _ _ _ _ hd' hw fun e'' he'' _ w hd'' hw' _ =>
          hinside e'' (hwithin he'') (hc.isType_ruleName hd hp) hd'' hw'
            (.inl (hconcrete.property hc hd hp)) with ⟨_, hoptional', _⟩ | htyped
        · rw [hoptional] at hoptional'
          cases hoptional'
        · exact .inr ⟨htyped.not_null, htyped⟩
      · obtain ⟨v, hv⟩ := Table.exists_find (hconforms.required x.1 hp hoptional)
        rw [hfind x hx, if_pos hnull] at hv
        cases hv
  · have hnull : x.2.isNull = false := by simpa using hnull
    rcases @typedAs_of_derives c leaf _ _ _ _ _ _ _ hd' hw fun e'' he'' cs w hd'' hw' hone =>
      hinside e'' (hwithin he'') (hc.isType_ruleName hd hp) hd'' hw' (hsound.imp
        (fun hconcrete => hconcrete.property hc hd hp) fun hconforms =>
          admits_of_oneOf (hconforms.property x.1 hp x.2 (by rw [hfind x hx, if_neg (by simp [hnull])]))
            hnull hone) with ⟨_, hoptional, hnull⟩ | htyped
    · exact .inl ⟨hoptional, hnull⟩
    · exact .inr ⟨hnull, htyped⟩

/-- **The rules of types read values of the types**, if these lead to no abstract type or
checking finds nothing in the value. -/
theorem TypedRules.typed (hc : c.Built) (hset : c.TypedRules set) (hformats : FormatRules s set)
    (hleaf : LeavesRead ctx leaf) (hT : c.IsType T) {cs : List Char} {e : Derivation}
    (h : Derives set (.rule T) cs e) (hv : e.evaluate set ctx = .ok v)
    (hsound : c.Concrete T ∨ c.Admits T v) : c.Typed leaf T v := by
  induction e using Derivation.inside_induction generalizing T cs v with
  | h e ih =>
    rcases hT with hT | hT
    · obtain ⟨t, ht⟩ := Option.isSome_iff_exists.mp hT
      by_cases hdate : t = .dateTime
      · subst hdate
        obtain rfl : T = "DateTime" := by simpa [Primitive.names] using Table.mem_of_find ht
        obtain ⟨format, r, text, hrule, hread⟩ := hformats.default_value .date h hv
        exact typed_of_read hc (.inl hT) rfl hread fun hk => hleaf rfl hk hrule hread
      · exact .primitive ht (hset.primitive_value ht hdate h hv) fun heq => absurd heq hdate
    obtain ⟨d, hd⟩ := Table.exists_find hT
    obtain ⟨_, rfl⟩ := mem_of_find_fqn hc.sound.types hd
    by_cases hmoney : d.fqn = Monetary.typeName
    · have hdefault : DefaultFormat s d.fqn .monetary Monetary.defaultFormat := hmoney ▸ .money
      obtain ⟨format, r, text, hrule, hread⟩ := hformats.default_value hdefault h hv
      obtain ⟨hk, hne⟩ := hdefault.type
      exact typed_of_read hc (.inr hT) hk hread fun _ => hleaf hk hne hrule hread
    by_cases henum : d.isEnum = true
    · obtain ⟨rfl, ht⟩ := hset.enum_value hd hmoney henum h hv
      exact .enum hd henum ht
    have henum : d.isEnum = false := by simpa using henum
    by_cases habstract : d.abstract = true
    · rcases hsound with hconcrete | hadmits
      · rw [hconcrete d hd .refl habstract] at henum
        cases henum
      · exact absurd hadmits (hset.not_admits_abstract hc hd hmoney henum habstract h hv)
    have habstract : d.abstract = false := by simpa using habstract
    exact hset.typed_concept hc hd hmoney henum habstract
      (fun e' he' {_ _ _} hT' h' hw => ih e' he' hT' h' hw) h hv hsound

end

end Catalog

end Covenant
