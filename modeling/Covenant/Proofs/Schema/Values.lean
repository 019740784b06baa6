import Covenant.Proofs.Pattern.Tokens
import Covenant.Proofs.Schema.TypedRules
import Covenant.Schema.Writing

/-!
Values that are written and read back.

* `Catalog.Written`: a value is written as a text that is read as the same value.
* `Catalog.Inverted`: every value that a derivation from a type's rule has is written.
* `Catalog.TypedRules.inverted_primitive`, `Catalog.TypedRules.inverted_enum`: this holds of
  primitive types, but for doubles and dates, and of enumerations.
* `Catalog.TypedRules.property_inverted`: the values of a property are written with its
  cardinality.
-/

namespace Covenant.Catalog

/-! ### Values that are written -/

/-- The types whose values are numbers with a point or are written in formats. -/
def IsLeaf (T : String) : Prop :=
  T = "Double" ∨ T = "DateTime" ∨ T = Monetary.typeName

/-- **A value is written** as a text that is read as the same value. -/
def Written (c : Catalog) (s : Settings) (set : RuleSet) (ctx : ReadingContext) (T : String)
    (v : Value) : Prop :=
  ∃ text, c.writeAs s v T = .ok text ∧ Reads set ctx (.rule T) text.toList v

/-- **The value of a derivation from a type's rule** is not null, and is written. -/
def Inverted (c : Catalog) (s : Settings) (set : RuleSet) (ctx : ReadingContext) (T : String)
    (e : Derivation) : Prop :=
  ∀ cs v, Derives set (.rule T) cs e → e.evaluate set ctx = .ok v →
    v.isNull = false ∧ c.Written s set ctx T v

/-- The doubles, dates and amounts of money in a derivation are written. -/
def LeavesWritten (c : Catalog) (s : Settings) (set : RuleSet) (ctx : ReadingContext)
    (d : Derivation) : Prop :=
  ∀ e ∈ d.within, ∀ T cs v, IsLeaf T → Derives set (.rule T) cs e →
    e.evaluate set ctx = .ok v → c.Written s set ctx T v

section

variable {c : Catalog} {s : Settings} {set : RuleSet} {ctx : ReadingContext}

theorem LeavesWritten.of_mem {d e : Derivation} (h : c.LeavesWritten s set ctx d)
    (he : e ∈ d.within) : c.LeavesWritten s set ctx e :=
  fun e' he' => h e' (Derivation.within_subset_of_mem he he')

/-! ### Primitive types -/

theorem patternRule_value {T regex action : String} {cs : List Char} {e : Derivation} {v : Value}
    (hfind : set.find? T = some (patternRule T regex action)) (h : Derives set (.rule T) cs e)
    (hv : e.evaluate set ctx = .ok v) : (Symbol.pattern regex).Accepts cs ∧
      Action.run action [.text (String.ofList cs)] [] ctx = .ok v := by
  obtain ⟨q, alternative, ds, vs, rfl, hq, hds, hvs, hv⟩ := Derivation.node_of_derives h hv hfind
  obtain rfl := eq_of_alternatives rfl hq
  obtain ⟨haccepts, rfl⟩ := (derivesAll_token_iff (by simp [Symbol.pattern]) rfl).mp hds
  obtain ⟨w, hw, rfl⟩ := Derivation.evaluateAll_singleton_eq_ok.mp hvs
  cases hw
  exact ⟨haccepts, hv⟩

theorem reads_patternRule {T regex action : String} {cs : List Char} {v : Value}
    (hfind : set.find? T = some (patternRule T regex action))
    (haccepts : (Symbol.pattern regex).Accepts cs)
    (hrun : Action.run action [.text (String.ofList cs)] [] ctx = .ok v) :
    Reads set ctx (.rule T) cs v :=
  reads_rule hfind (q := 0) rfl
    (readsAll_singleton (reads_token (by simp [Symbol.pattern]) rfl haccepts)) hrun

theorem quote_of_accepts {cs : List Char}
    (h : (Symbol.pattern "\"(?:[^\"\\\\]|\\\\.)*\"").Accepts cs) : ∃ rest, cs = '"' :: rest := by
  rw [Symbol.Accepts, Symbol.toPattern_primitive.1, Pattern.match?] at h
  cases cs with
  | nil => simp [Pattern.run] at h
  | cons d rest =>
    by_cases hd : d = '"'
    · exact ⟨rest, hd ▸ rfl⟩
    · simp [Pattern.run, Ne.symm hd] at h

theorem text_of_readJson {rest : List Char} {v : Value}
    (h : Action.readJson (.text (String.ofList ('"' :: rest))) = .ok v) : ∃ t, v = .text t := by
  have hread : Json.read (String.ofList ('"' :: rest)) = .ok v := by
    simp only [Action.readJson] at h
    split at h
    · rename_i w hw
      rw [hw, Except.ok.inj h]
    · cases h
  unfold Json.read at hread
  split at hread
  · rename_i w hw
    cases hread
    rw [String.toList_ofList] at hw
    unfold Json.readChars at hw
    split at hw
    · rename_i heq
      cases heq
    · obtain ⟨⟨w, rest'⟩, hvalue, hw⟩ := Outcome.bind_eq_ok.mp hw
      rw [Json.skip_quote] at hvalue
      simp only [Json.readValue] at hvalue
      obtain ⟨r, _, hr⟩ := Outcome.map_eq_ok.mp hvalue
      cases hr
      simp only at hw
      split at hw
      · cases hw
        exact ⟨_, rfl⟩
      · cases hw
  · cases hread

/-- What is written for a value as a type, where `entriesOf` are the entries of an
object. -/
def entriesOf (c : Catalog) (s : Settings) : Value → Table Writable
  | .object fields => c.writableEntries s fields
  | _ => []

theorem writeAs_eq (v : Value) (T : String) :
    c.writeAs s v T = c.writeBy s v (c.entriesOf s v) T := by
  cases v <;> rw [writeAs] <;> first | rfl | simp

theorem writeAs_primitive {T : String} {t : Primitive} (ht : Primitive.ofName? T = some t)
    (v : Value) : c.writeAs s v T = t.write s v := by
  rw [writeAs_eq, writeBy, ht]

theorem TypedRules.text_of_string (hset : c.TypedRules set) {cs : List Char} {e : Derivation}
    {v : Value} (h : Derives set (.rule "String") cs e) (hv : e.evaluate set ctx = .ok v) :
    ∃ t, v = .text t := by
  obtain ⟨r, _, _, _, hfind, _⟩ := derives_rule_iff.mp h
  obtain rfl := hset.primitive (t := .string) rfl rfl hfind
  obtain ⟨haccepts, hrun⟩ := patternRule_value hfind h hv
  obtain ⟨rest, rfl⟩ := quote_of_accepts haccepts
  exact text_of_readJson hrun

/-- A text is read as it is written. -/
theorem TypedRules.reads_text (hset : c.TypedRules set) {r : Rule}
    (hfind : set.find? "String" = some r) (t : String) :
    Reads set ctx (.rule "String") (JsonText.literal false t).toList (.text t) := by
  obtain rfl := hset.primitive (t := .string) rfl rfl hfind
  refine reads_patternRule hfind (Symbol.accepts_string t) ?_
  rw [String.ofList_toList]
  simp [Action.run, Action.first, Action.readJson, Json.read_literal]

theorem TypedRules.inverted_string (hset : c.TypedRules set) (e : Derivation) :
    c.Inverted s set ctx "String" e := by
  intro cs v h hv
  obtain ⟨r, _, _, _, hfind, _⟩ := derives_rule_iff.mp h
  obtain ⟨t, rfl⟩ := hset.text_of_string h hv
  exact ⟨rfl, JsonText.literal false t, writeAs_primitive (t := .string) rfl _,
    hset.reads_text hfind t⟩

theorem inverted_integer {T : String}
    (hfind : set.find? T = some (patternRule T "[+-]?[0-9]+" "integer"))
    (hwrite : ∀ n : Int, c.writeAs s (.int n) T = .ok (toString n)) (e : Derivation) :
    c.Inverted s set ctx T e := by
  intro cs v h hv
  obtain ⟨_, hrun⟩ := patternRule_value hfind h hv
  obtain ⟨n, hn, rfl⟩ := Outcome.map_eq_ok.mp hrun
  have hread : Decimal.readInt? (String.ofList cs) = some n := by
    cases hread : Decimal.readInt? (String.ofList cs) with
    | none => simp [Action.first, Value.toInt?, hread, Outcome.ofOption, Outcome.fail] at hn
    | some m => simpa [Action.first, Value.toInt?, hread, Outcome.ofOption] using hn
  refine ⟨rfl, toString n, hwrite n, reads_patternRule hfind (Symbol.accepts_integer n) ?_⟩
  rw [String.ofList_toList]
  simp only [Action.run, Action.first, List.headD_cons, Value.toInt?,
    Decimal.readInt_toString (Decimal.readInt_lt hread)]
  rfl

theorem inverted_boolean (hfind : set.find? "Boolean" =
    some (patternRule "Boolean" "true|false" "boolean")) (e : Derivation) :
    c.Inverted s set ctx "Boolean" e := by
  intro cs v h hv
  obtain ⟨_, hrun⟩ := patternRule_value hfind h hv
  obtain ⟨b, rfl⟩ : ∃ b, v = .bool b := ⟨_, (Except.ok.inj hrun).symm⟩
  refine ⟨rfl, _, writeAs_primitive (t := .boolean) rfl _,
    reads_patternRule hfind (Symbol.accepts_boolean b) ?_⟩
  rw [String.ofList_toList]
  cases b <;> rfl

/-- **The values of primitive types are written**, but for doubles and dates. -/
theorem TypedRules.inverted_primitive (hset : c.TypedRules set) {T : String}
    (hT : Primitive.isName T = true) (hleaf : ¬ IsLeaf T) (e : Derivation) :
    c.Inverted s set ctx T e := by
  intro cs v h hv
  obtain ⟨r, _, _, _, hfind, _⟩ := derives_rule_iff.mp h
  obtain ⟨t, ht⟩ := Option.isSome_iff_exists.mp hT
  have hname : (T, t) ∈ Primitive.names := Table.mem_of_find ht
  cases t with
  | string =>
    obtain rfl : T = "String" := by simpa [Primitive.names] using hname
    exact hset.inverted_string e cs v h hv
  | integer | long =>
    obtain rfl := hset.primitive ht rfl hfind
    exact inverted_integer hfind (fun n => writeAs_primitive ht (.int n)) e cs v h hv
  | boolean =>
    obtain rfl : T = "Boolean" := by simpa [Primitive.names] using hname
    obtain rfl := hset.primitive ht rfl hfind
    exact inverted_boolean hfind e cs v h hv
  | double => exact absurd (.inl (by simpa [Primitive.names] using hname)) hleaf
  | dateTime => exact absurd (.inr (.inl (by simpa [Primitive.names] using hname))) hleaf

/-- Nothing is written for null in a format. -/
theorem not_null_of_format {k : Formatted} {v : Value} {format text : String}
    (h : k.write v format = .ok text) : v.isNull = false := by
  cases v with
  | null =>
    cases k with
    | date =>
      obtain ⟨m, hm, _⟩ := Outcome.bind_eq_ok.mp (show DateTime.write .null format = .ok text from h)
      cases hm
    | amount =>
      obtain ⟨_, _, h⟩ := Outcome.bind_eq_ok.mp (show Amount.write .null format = .ok text from h)
      cases h
    | monetary =>
      obtain ⟨f, _, h⟩ := Outcome.bind_eq_ok.mp (show Monetary.write .null format = .ok text from h)
      cases h
  | _ => rfl

/-- Nothing is written for null as a double, a date or an amount of money. -/
theorem not_null_of_leaf {T : String} (hleaf : IsLeaf T) {v : Value} {text : String}
    (h : c.writeAs s v T = .ok text) : v.isNull = false := by
  rw [writeAs_eq] at h
  rcases hleaf with rfl | rfl | rfl
  · cases v with
    | null => cases h
    | _ => rfl
  · exact not_null_of_format (k := .date) h
  · exact not_null_of_format (k := .monetary) h

/-! ### Enumerations -/

/-- What is written for a value as a declared type. -/
theorem writeAs_declared (hc : c.Built) {d : SchemaType} (hd : c.types.find? d.fqn = some d)
    (hmoney : d.fqn ≠ Monetary.typeName) (v : Value) :
    c.writeAs s v d.fqn = if d.isEnum then .ok v.plain else (c.actualType d v).bind fun d =>
      if d.properties.isEmpty then .ok d.name
      else writeProperties d v (c.entriesOf s v) := by
  rw [writeAs_eq, writeBy, hc.ofName_eq_none (Table.mem_names_of_find hd)]
  simp only [if_neg hmoney, get, hd]
  rfl

/-- **The value of an enumeration** is one of its texts, as it is read. -/
theorem TypedRules.enum_value (hset : c.TypedRules set) {d : SchemaType}
    (hd : c.types.find? d.fqn = some d) (hmoney : d.fqn ≠ Monetary.typeName)
    (henum : d.isEnum = true) {cs : List Char} {e : Derivation} {v : Value}
    (h : Derives set (.rule d.fqn) cs e) (hv : e.evaluate set ctx = .ok v) :
    v = .text (String.ofList cs) ∧ String.ofList cs ∈ d.values := by
  obtain ⟨r, _, _, _, hfind, _⟩ := derives_rule_iff.mp h
  have hr := hset.declared hd hmoney hfind
  rw [rulesOf, if_pos henum, Except.ok.injEq, List.singleton_inj] at hr
  subst hr
  obtain ⟨q, alternative, ds, vs, rfl, hq, hds, hvs, happly⟩ :=
    Derivation.node_of_derives h hv hfind
  obtain ⟨t, ht, rfl⟩ := List.mem_map.mp (List.mem_of_getElem? hq)
  obtain ⟨haccepts, rfl⟩ := (derivesAll_token_iff (by simp [Symbol.literal]) rfl).mp hds
  obtain ⟨w, hw, rfl⟩ := Derivation.evaluateAll_singleton_eq_ok.mp hvs
  cases hw
  cases happly
  have htext : cs = t.toList := Symbol.accepts_literal_iff.mp haccepts
  exact ⟨rfl, by rwa [htext, String.ofList_toList]⟩

/-- **The values of enumerations are written** as they are. -/
theorem TypedRules.inverted_enum (hc : c.Built) (hset : c.TypedRules set) {d : SchemaType}
    (hd : c.types.find? d.fqn = some d) (hmoney : d.fqn ≠ Monetary.typeName)
    (henum : d.isEnum = true) (e : Derivation) : c.Inverted s set ctx d.fqn e := by
  intro cs v h hv
  obtain ⟨rfl, _⟩ := hset.enum_value hd hmoney henum h hv
  refine ⟨rfl, String.ofList cs, ?_, ?_⟩
  · rw [writeAs_declared hc hd hmoney, if_pos henum]
    rfl
  · rw [String.toList_ofList]
    exact ⟨_, h, hv⟩

/-! ### Values of properties -/

theorem writableItems_eq (vs : List Value) :
    c.writableItems s vs = vs.map fun v => (v, c.writeAs s v) := by
  induction vs with
  | nil => rw [writableItems]; rfl
  | cons v vs ih => rw [writableItems, ih]; rfl

theorem find_writableEntries (fields : List (String × Value)) (key : String) :
    (c.writableEntries s fields).find? key = (Table.find? fields key).map (c.writable s) := by
  induction fields with
  | nil => rw [writableEntries]; rfl
  | cons e fields ih =>
    obtain ⟨k, v⟩ := e
    rw [writableEntries, Table.find?, List.lookup, Table.find?, List.lookup]
    split
    · rfl
    · exact ih

/-- What a property with its cardinality derives: any number of values, none, or one. -/
theorem derives_cardinality {p : Property} {target : String} {cs : List Char} {e : Derivation}
    {v : Value} (h : Derives set (.rule target p.cardinality) cs e)
    (hv : e.evaluate set ctx = .ok v) :
    (p.array = true ∧ ∃ n ds vs, DerivesAll set (List.replicate n (.rule target)) cs ds ∧
      e = .many ds ∧ Derivation.evaluateAll set ctx ds = .ok vs ∧ v = .list vs) ∨
    (p.array = false ∧ p.optional = true ∧ cs = [] ∧ v = .null) ∨
    (p.array = false ∧ Derives set (.rule target) cs e) := by
  by_cases harray : p.array = true
  · have hmany : (Symbol.rule target p.cardinality).cardinality = .many := by
      simp [Symbol.rule, Property.cardinality, harray]
    obtain ⟨n, ds, hds, rfl⟩ := (derives_many_iff hmany).mp h
    obtain ⟨vs, hvs, rfl⟩ := Derivation.evaluate_many_eq_ok.mp hv
    exact .inl ⟨harray, n, ds, vs, hds, rfl, hvs, rfl⟩
  · have harray : p.array = false := by simpa using harray
    by_cases hoptional : p.optional = true
    · have hcard : (Symbol.rule target p.cardinality).cardinality = .optional := by
        simp [Symbol.rule, Property.cardinality, harray, hoptional]
      rcases (derives_optional_iff hcard).mp h with ⟨rfl, rfl⟩ | h
      · cases hv
        exact .inr (.inl ⟨harray, hoptional, rfl, rfl⟩)
      · exact .inr (.inr ⟨harray, h⟩)
    · have hcard : p.cardinality = .one := by simp [Property.cardinality, harray, hoptional]
      rw [hcard] at h
      exact .inr (.inr ⟨harray, h⟩)

theorem reads_cardinality {p : Property} {target : String} (harray : p.array = false)
    {cs : List Char} {v : Value} (h : Reads set ctx (.rule target) cs v) :
    Reads set ctx (.rule target p.cardinality) cs v := by
  unfold Property.cardinality
  rw [if_neg (by simp [harray])]
  split
  · exact reads_present rfl h
  · exact h

/-- What is written for a value of a property that is no array. -/
theorem writeProperty_one {p : Property} (harray : p.array = false) {v : Value}
    (hnull : v.isNull = false) (format : Option String) :
    c.writeProperty s p v format = Writable.one p format v (c.writeAs s v) := by
  simp [writeProperty, Writable.property, writable, hnull, harray]

/-- The members of an array are written one after the other. -/
theorem writeProperty_list {p : Property} (harray : p.array = true) {vs : List Value}
    {format : Option String} {texts : List String}
    (h : List.Forall₂ (fun v text => Writable.one p format v (c.writeAs s v) = .ok text) vs texts) :
    c.writeProperty s p (.list vs) format = .ok (String.join texts) := by
  have hmapM : (c.writableItems s vs).mapM (fun e => Writable.one p format e.1 e.2) = .ok texts := by
    rw [writableItems_eq, Outcome.mapM_eq_ok_iff, List.forall₂_map_left_iff]
    exact h
  simp only [writeProperty, Writable.property, writable, writableMembers, harray]
  exact Outcome.bind_eq_ok.mpr ⟨_, rfl, Outcome.bind_eq_ok.mpr ⟨texts, hmapM, rfl⟩⟩

theorem writeProperty_null {p : Property} (h : p.optional = true) (format : Option String) :
    c.writeProperty s p .null format = .ok "" := by
  simp [writeProperty, Writable.property, writable, Value.isNull, writeAbsent, h]

/-- **The value of a property is written** with its cardinality, as each of its members is:
nothing for an absent one, and one text after the other for an array. -/
theorem property_written {p : Property} {format : Option String} {target : String} {e : Derivation}
    (hone : ∀ e' ∈ e.within, ∀ cs v, Derives set (.rule target) cs e' →
      e'.evaluate set ctx = .ok v → v.isNull = false ∧
        ∃ text, Writable.one p format v (c.writeAs s v) = .ok text ∧
          Reads set ctx (.rule target) text.toList v) {cs : List Char} {v : Value}
    (h : Derives set (.rule target p.cardinality) cs e) (hv : e.evaluate set ctx = .ok v) :
    ∃ text, c.writeProperty s p v format = .ok text ∧
      Reads set ctx (.rule target p.cardinality) text.toList v := by
  rcases derives_cardinality h hv with ⟨harray, n, ds, vs, hds, rfl, hvs, rfl⟩ |
    ⟨harray, hoptional, rfl, rfl⟩ | ⟨harray, h⟩
  · have hmany : (Symbol.rule target p.cardinality).cardinality = .many := by
      simp [Symbol.rule, Property.cardinality, harray]
    have htexts : ∀ v ∈ vs, ∃ text, Writable.one p format v (c.writeAs s v) = .ok text ∧
        Reads set ctx (.rule target) text.toList v := by
      intro v hv
      obtain ⟨cs, e', he', hd, hw⟩ := exists_of_derivesAll_replicate hds hvs hv
      exact (hone e' (Derivation.within_subset_many he' e'.self_mem_within) cs v hd hw).2
    choose! text htext using htexts
    refine ⟨String.join (vs.map text), writeProperty_list harray ?_, ?_⟩
    · rw [List.forall₂_map_right_iff]
      exact List.forall₂_same.mpr fun v hv => (htext v hv).1
    · rw [String.toList_join, List.flatMap_def]
      refine reads_many hmany (List.forall₂_map_left_iff.mpr ?_)
      rw [List.forall₂_map_left_iff]
      exact List.forall₂_same.mpr fun v hv => (htext v hv).2
  · refine ⟨"", writeProperty_null hoptional format, reads_absent ?_⟩
    simp [Symbol.rule, Property.cardinality, harray, hoptional]
  · obtain ⟨hnull, text, hwrite, hread⟩ := hone e e.self_mem_within cs v h hv
    exact ⟨text, (writeProperty_one harray hnull format).trans hwrite, reads_cardinality harray hread⟩

/-- **One value of a property is written.** -/
theorem item_inverted (hset : c.TypedRules set) {p : Property} {e : Derivation}
    (hinverted : c.Inverted s set ctx p.ruleName e) {cs : List Char} {v : Value}
    (h : Derives set (.rule p.ruleName) cs e) (hv : e.evaluate set ctx = .ok v) :
    v.isNull = false ∧ ∃ text, Writable.one p none v (c.writeAs s v) = .ok text ∧
      Reads set ctx (.rule p.ruleName) text.toList v := by
  obtain ⟨hnull, text, hwrite, hread⟩ := hinverted cs v h hv
  refine ⟨hnull, text, ?_, hread⟩
  unfold Writable.one
  by_cases hrelationship : p.relationship = true
  · have hname : p.ruleName = "String" := by rw [Property.ruleName, if_pos hrelationship]
    rw [hname] at h hwrite
    obtain ⟨t, rfl⟩ := hset.text_of_string h hv
    rwa [if_pos hrelationship]
  · rw [if_neg hrelationship]
    rwa [Property.ruleName, if_neg hrelationship] at hwrite

/-- **The value of a property is written** as the rule of its type reads it. -/
theorem TypedRules.property_inverted (hset : c.TypedRules set) {p : Property} {e : Derivation}
    (hinverted : ∀ e' ∈ e.within, c.Inverted s set ctx p.ruleName e') {cs : List Char} {v : Value}
    (h : Derives set (SchemaType.propertySymbol p) cs e) (hv : e.evaluate set ctx = .ok v) :
    ∃ text, c.writeProperty s p v = .ok text ∧
      Reads set ctx (SchemaType.propertySymbol p) text.toList v :=
  property_written (fun e' he' _ _ h hv => item_inverted hset (hinverted e' he') h hv) h hv

/-- **A text is written as the value of a property** of texts, whatever its cardinality: that
of an array is written character by character. -/
theorem TypedRules.text_written (hset : c.TypedRules set) {r : Rule}
    (hfind : set.find? "String" = some r) {p : Property} (hp : p.type = "String") (t : String) :
    ∃ text w, c.writeProperty s p (.text t) = .ok text ∧
      Reads set ctx (SchemaType.propertySymbol p) text.toList w := by
  have hname : p.ruleName = "String" := by
    rw [Property.ruleName, hp]
    exact ite_self _
  have hone : ∀ (t : String) (write : String → Outcome String),
      write "String" = .ok (JsonText.literal false t) →
      Writable.one p none (.text t) write = .ok (JsonText.literal false t) := by
    intro t write hwrite
    unfold Writable.one
    split
    · rfl
    · rw [hp]
      exact hwrite
  by_cases harray : p.array = true
  · have hmany : (SchemaType.propertySymbol p).cardinality = .many := by
      simp [SchemaType.propertySymbol, Symbol.rule, Property.cardinality, harray]
    have hmapM : (t.toList.map fun ch => c.writeText s (toString ch)).mapM
        (fun e => Writable.one p none e.1 e.2) =
        .ok (t.toList.map fun ch => JsonText.literal false (toString ch)) := by
      rw [Outcome.mapM_eq_ok_iff, List.forall₂_map_left_iff, List.forall₂_map_right_iff]
      exact List.forall₂_same.mpr fun ch _ => hone _ _ rfl
    refine ⟨String.join (t.toList.map fun ch => JsonText.literal false (toString ch)),
      .list (t.toList.map fun ch => .text (toString ch)), ?_, ?_⟩
    · simp only [writeProperty, Writable.property, writable, writableMembers, harray]
      exact Outcome.bind_eq_ok.mpr ⟨_, rfl, Outcome.bind_eq_ok.mpr ⟨_, hmapM, rfl⟩⟩
    · rw [String.toList_join, List.flatMap_def]
      refine reads_many hmany ?_
      rw [List.map_map, List.forall₂_map_left_iff, List.forall₂_map_right_iff]
      exact List.forall₂_same.mpr fun ch _ => by
        rw [show (SchemaType.propertySymbol p).single = .rule "String" by rw [← hname]; rfl]
        exact hset.reads_text hfind _
  · have harray : p.array = false := by simpa using harray
    refine ⟨JsonText.literal false t, .text t, ?_, reads_cardinality harray ?_⟩
    · rw [writeProperty_one harray rfl]
      exact hone t _ (writeAs_primitive (t := .string) rfl _)
    · rw [hname]
      exact hset.reads_text hfind t

end

end Covenant.Catalog
