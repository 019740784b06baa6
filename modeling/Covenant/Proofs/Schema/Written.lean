import Covenant.Proofs.Schema.Values

/-!
Writing inverts the rules of types.

* `Catalog.concept_value`, `Catalog.write_concept`, `Catalog.reads_concept`: concepts as the
  texts of their properties.
* `Catalog.TypedRules.inverted`: the value of any type is written when the doubles, dates and
  amounts of money in its derivation are.
* `Catalog.written_of_derives`: so writing inverts the rules that go with a type.
-/

namespace Covenant

namespace Catalog

section

variable {c : Catalog} {s : Settings} {set : RuleSet} {ctx : ReadingContext}

/-! ### Concepts -/

/-- Symbols with a space between them have values with a space between them. -/
theorem exists_of_derivesAll_intersperse {α : Type} {f : α → Symbol} {as : List α}
    {cs : List Char} {ds : List Derivation} {vs : List Value}
    (h : DerivesAll set ((as.map f).intersperse (.literal " ")) cs ds)
    (hvs : Derivation.evaluateAll set ctx ds = .ok vs) :
    ∃ es : List (α × Value), as = es.map Prod.fst ∧
      vs = (es.map Prod.snd).intersperse (.text " ") ∧
      ∀ e ∈ es, ∃ cs, ∃ d ∈ ds, Derives set (f e.1) cs d ∧ d.evaluate set ctx = .ok e.2 := by
  induction as generalizing cs ds vs with
  | nil =>
    obtain ⟨_, rfl⟩ := derivesAll_nil_iff.mp h
    exact ⟨[], rfl, Derivation.evaluateAll_nil_eq_ok.mp hvs, by simp⟩
  | cons a as ih =>
    cases as with
    | nil =>
      obtain ⟨d, rfl, hd⟩ := derivesAll_singleton_iff.mp h
      obtain ⟨w, hw, rfl⟩ := Derivation.evaluateAll_singleton_eq_ok.mp hvs
      refine ⟨[(a, w)], rfl, rfl, fun e he => ?_⟩
      obtain rfl := List.mem_singleton.mp he
      exact ⟨cs, d, by simp, hd, hw⟩
    | cons b bs =>
      rw [List.map_cons, List.map_cons, List.intersperse_cons_cons] at h
      obtain ⟨cs₁, _, d, _, _, rfl, hd, hspace⟩ := derivesAll_cons_iff.mp h
      obtain ⟨_, cs₂, e, ds, _, rfl, he, hrest⟩ := derivesAll_cons_iff.mp hspace
      obtain ⟨w, _, hw, htail, rfl⟩ := Derivation.evaluateAll_cons_eq_ok.mp hvs
      obtain ⟨blank, vs, hblank, hvalues, rfl⟩ := Derivation.evaluateAll_cons_eq_ok.mp htail
      obtain ⟨haccepts, rfl⟩ := (derives_token_iff (by simp [Symbol.literal]) rfl).mp he
      rw [Symbol.accepts_literal_iff] at haccepts
      cases hblank
      obtain ⟨es, has, rfl, hes⟩ := ih hrest hvalues
      refine ⟨(a, w) :: es, by rw [List.map_cons, ← has], ?_, ?_⟩
      · cases es with
        | nil => cases has
        | cons e es =>
          rw [haccepts, String.ofList_toList]
          rfl
      · refine List.forall_mem_cons.mpr ⟨⟨cs₁, d, by simp, hd, hw⟩, fun e he => ?_⟩
        obtain ⟨cs, d, hd, h⟩ := hes e he
        exact ⟨cs, d, by simp [hd], h⟩

/-- Texts with a space between them are read by symbols with a space between them. -/
theorem readsAll_intersperse {α : Type} {f : α → Symbol} {text : α → String} {value : α → Value}
    {es : List α} (h : ∀ e ∈ es, Reads set ctx (f e) (text e).toList (value e)) :
    ReadsAll set ctx ((es.map f).intersperse (.literal " "))
      (" ".intercalate (es.map text)).toList ((es.map value).intersperse (.text " ")) := by
  induction es with
  | nil => exact readsAll_nil
  | cons e es ih =>
    cases es with
    | nil => simpa using readsAll_singleton (h e (by simp))
    | cons e' es =>
      have hspace : Reads set ctx (.literal " ") " ".toList (.text " ") :=
        reads_token (by simp [Symbol.literal]) rfl (Symbol.accepts_literal_iff.mpr rfl)
      have hrest := ih fun e he => h e (List.mem_cons_of_mem _ he)
      have hall := readsAll_cons (h e (by simp)) (readsAll_cons hspace hrest)
      simpa [String.toList_intercalate, List.intercalate_cons_cons] using hall

/-- The parameters of a concept's action take the values of its properties. -/
theorem mapM_bind_eq (alternative : List Symbol) (space : Value)
    (es : List (Property × Value)) :
    ((es.map Prod.fst).zipIdx.map fun (p, i) => (⟨p.name, .index (2 * i)⟩ : ActionParam)).mapM
      (fun q => (Action.bind alternative ((es.map Prod.snd).intersperse space) q.source).map
        (q.key, ·)) = .ok (es.map fun e => (e.1.name, e.2)) := by
  rw [Outcome.mapM_eq_ok_iff, List.forall₂_map_left_iff, List.forall₂_iff_get]
  refine ⟨by simp, fun i hi hi' => ?_⟩
  simp only [List.get_eq_getElem, List.getElem_zipIdx, List.getElem_map, Nat.zero_add]
  have hpos : ¬ (2 * (i : Int) < 0) := by omega
  have hnat : (2 * (i : Int)).toNat = 2 * i := by omega
  have hi' : i < es.length := by simpa using hi'
  rw [Action.bind, if_neg hpos, hnat, List.getElem?_intersperse_two_mul, List.getElem?_map,
    List.getElem?_eq_getElem hi']
  rfl

/-- The entries of a concept whose properties have the values in `es`. -/
def conceptFields (d : SchemaType) (es : List (Property × Value)) : List (String × Value) :=
  ((classKey, .text d.fqn) :: es.map fun e => (e.1.name, e.2)).filter fun e => !e.2.isNull

theorem apply_conceptRule {d : SchemaType} {es : List (Property × Value)}
    (hes : d.properties = es.map Prod.fst)
    (hkeys : (classKey :: es.map fun e => e.1.name).Nodup) (alternative : List Symbol)
    {vs : List Value} (hvs : es ≠ [] → vs = (es.map Prod.snd).intersperse (.text " ")) :
    d.conceptRule.apply ctx alternative vs = .ok (.object (conceptFields d es)) := by
  have hparams : ((es.map Prod.fst).zipIdx.map fun (p, i) =>
      (⟨p.name, .index (2 * i)⟩ : ActionParam)).mapM (fun q =>
        (Action.bind alternative vs q.source).map (q.key, ·)) =
      .ok (es.map fun e => (e.1.name, e.2)) := by
    cases es with
    | nil => rfl
    | cons e es =>
      rw [hvs (by simp)]
      exact mapM_bind_eq alternative _ _
  have hnames : (Table.names ((classKey, Value.text d.fqn) :: es.map fun e => (e.1.name, e.2))).Nodup := by
    simpa [Table.names, Function.comp_def] using hkeys
  rw [Rule.apply]
  simp only [SchemaType.conceptRule, SchemaType.ruleOf, List.mapM_cons, hes, hparams]
  change Action.run "object" vs (Table.ofList ((classKey, .text d.fqn) :: _)) ctx = _
  rw [Table.ofList_eq_self hnames]
  rfl

theorem alternatives_conceptRule (d : SchemaType) : d.conceptRule.alternatives =
    [if d.properties = [] then [.literal d.name]
      else (d.properties.map SchemaType.propertySymbol).intersperse (.literal " ")] := by
  cases hproperties : d.properties with
  | nil => simp [SchemaType.conceptRule, SchemaType.ruleOf, hproperties]
  | cons p ps =>
    cases ps <;> simp [SchemaType.conceptRule, SchemaType.ruleOf, hproperties]

/-- **The value of a concept** holds its properties that are not null. -/
theorem concept_value {d : SchemaType} (hkeys : (classKey :: d.properties.map Property.name).Nodup)
    (hfind : set.find? d.fqn = some d.conceptRule) {cs : List Char} {e : Derivation} {v : Value}
    (h : Derives set (.rule d.fqn) cs e) (hv : e.evaluate set ctx = .ok v) :
    ∃ es, d.properties = es.map Prod.fst ∧ v = .object (conceptFields d es) ∧
      ∀ x ∈ es, ∃ cs, ∃ e' ∈ e.inside, Derives set (SchemaType.propertySymbol x.1) cs e' ∧
        e'.within ⊆ e.inside ∧ e'.evaluate set ctx = .ok x.2 := by
  obtain ⟨q, alternative, ds, vs, rfl, hq, hds, hvs, happly⟩ := Derivation.node_of_derives h hv hfind
  rw [alternatives_conceptRule] at hq
  obtain rfl := List.mem_singleton.mp (List.mem_of_getElem? hq)
  have hwithin : ∀ e' ∈ ds, e'.within ⊆ (Derivation.node d.fqn q ds).inside := fun e' he' =>
    Derivation.within_subset_withinAll he'
  have hkeys' : ∀ {es : List (Property × Value)}, d.properties = es.map Prod.fst →
      (classKey :: es.map fun e => e.1.name).Nodup := by
    intro es hes
    simpa [hes, Function.comp_def] using hkeys
  by_cases hempty : d.properties = []
  · refine ⟨[], hempty, ?_, by simp⟩
    have hnone : d.properties = ([] : List (Property × Value)).map Prod.fst := hempty
    rw [apply_conceptRule hnone (hkeys' hnone) _ (by simp)] at happly
    exact (Except.ok.inj happly).symm
  · rw [if_neg hempty] at hds happly
    obtain ⟨es, hes, rfl, hall⟩ := exists_of_derivesAll_intersperse hds hvs
    refine ⟨es, hes, ?_, fun x hx => ?_⟩
    · rw [apply_conceptRule hes (hkeys' hes) _ fun _ => rfl] at happly
      exact (Except.ok.inj happly).symm
    · obtain ⟨cs, e', he', hd, hv⟩ := hall x hx
      exact ⟨cs, e', hwithin e' he' e'.self_mem_within, hd, hwithin e' he', hv⟩

/-- What the rules of types read by the rule of a concept has its properties, each once. -/
theorem TypedRules.concept_value (hc : c.Built) (hset : c.TypedRules set) {d : SchemaType}
    (hd : c.types.find? d.fqn = some d) (hmoney : d.fqn ≠ Monetary.typeName)
    (henum : d.isEnum = false) (habstract : d.abstract = false) {cs : List Char} {e : Derivation}
    {v : Value} (h : Derives set (.rule d.fqn) cs e) (hv : e.evaluate set ctx = .ok v) :
    set.find? d.fqn = some d.conceptRule ∧ ∃ es, d.properties = es.map Prod.fst ∧
      (classKey :: es.map fun x => x.1.name).Nodup ∧ v = .object (conceptFields d es) ∧
      ∀ x ∈ es, ∃ cs, ∃ e' ∈ e.inside, Derives set (SchemaType.propertySymbol x.1) cs e' ∧
        e'.within ⊆ e.inside ∧ e'.evaluate set ctx = .ok x.2 := by
  obtain ⟨r, _, _, _, hfind, _⟩ := derives_rule_iff.mp h
  obtain rfl := hset.concept hd hmoney henum habstract hfind
  obtain ⟨es, hes, rfl, hparts⟩ := Catalog.concept_value (hc.nodup_keys hd) hfind h hv
  have hkeys : (classKey :: es.map fun x => x.1.name).Nodup := by
    simpa [hes, Function.comp_def] using hc.nodup_keys hd
  exact ⟨hfind, es, hes, hkeys, rfl, hparts⟩

/-- **A concept is read** from the texts of its properties, or from its name. -/
theorem reads_concept {d : SchemaType} (hkeys : (classKey :: d.properties.map Property.name).Nodup)
    (hfind : set.find? d.fqn = some d.conceptRule) {es : List (Property × Value)}
    (hes : d.properties = es.map Prod.fst) {text : Property × Value → String}
    (h : ∀ e ∈ es, Reads set ctx (SchemaType.propertySymbol e.1) (text e).toList e.2) :
    Reads set ctx (.rule d.fqn)
      (if d.properties.isEmpty then d.name else " ".intercalate (es.map text)).toList
      (.object (conceptFields d es)) := by
  have hkeys' : (classKey :: es.map fun e => e.1.name).Nodup := by
    simpa [hes, Function.comp_def] using hkeys
  have hfirst : d.conceptRule.alternatives[0]? = some (if d.properties = [] then [.literal d.name]
      else (d.properties.map SchemaType.propertySymbol).intersperse (.literal " ")) := by
    rw [alternatives_conceptRule]
    rfl
  by_cases hempty : d.properties = []
  · have hnil : es = [] := by simpa [hempty] using hes
    have hname : Reads set ctx (.literal d.name) d.name.toList (.text d.name) := by
      simpa using reads_token (by simp [Symbol.literal]) rfl (Symbol.accepts_literal_iff.mpr rfl)
    rw [if_pos hempty] at hfirst
    rw [if_pos (by simp [hempty])]
    exact reads_rule hfind hfirst (readsAll_singleton hname)
      (apply_conceptRule hes hkeys' _ fun hne => absurd hnil hne)
  · rw [if_neg hempty, hes, List.map_map] at hfirst
    rw [if_neg (by simpa using hempty)]
    exact reads_rule hfind hfirst (readsAll_intersperse h) (apply_conceptRule hes hkeys' _ fun _ => rfl)

theorem find_conceptFields {d : SchemaType} {es : List (Property × Value)}
    (hkeys : (classKey :: es.map fun e => e.1.name).Nodup) :
    Table.find? (conceptFields d es) classKey = some (.text d.fqn) ∧
      ∀ e ∈ es, Table.find? (conceptFields d es) e.1.name =
        if e.2.isNull then none else some e.2 := by
  have hall : (Table.names ((classKey, Value.text d.fqn) :: es.map fun e => (e.1.name, e.2))).Nodup := by
    simpa [Table.names, Function.comp_def] using hkeys
  have hnames : (Table.names (conceptFields d es)).Nodup :=
    hall.sublist (List.filter_sublist.map _)
  refine ⟨(Table.find_eq_some_iff hnames).mpr ?_, fun e he => ?_⟩
  · exact List.mem_filter.mpr ⟨by simp, rfl⟩
  · have hmem : (e.1.name, e.2) ∈ (classKey, Value.text d.fqn) :: es.map fun e => (e.1.name, e.2) :=
      List.mem_cons_of_mem _ (List.mem_map.mpr ⟨e, he, rfl⟩)
    split
    · rename_i hnull
      rw [Table.find_eq_none_iff]
      intro hname
      obtain ⟨x, hx, hxname⟩ := List.mem_map.mp hname
      obtain ⟨hx, hset⟩ := List.mem_filter.mp hx
      -- the only entry of this name is null
      obtain rfl : x = (e.1.name, e.2) := List.inj_on_of_nodup_map hall hx hmem hxname
      simp [hnull] at hset
    · rename_i hnull
      refine (Table.find_eq_some_iff hnames).mpr (List.mem_filter.mpr ⟨hmem, ?_⟩)
      simpa using hnull

/-- **A concept is written** by the texts of its properties, or by its name. -/
theorem write_concept (hc : c.Built) {d : SchemaType} (hd : c.types.find? d.fqn = some d)
    (hmoney : d.fqn ≠ Monetary.typeName) (henum : d.isEnum = false) (habstract : d.abstract = false)
    {es : List (Property × Value)} (hes : d.properties = es.map Prod.fst)
    (hkeys : (classKey :: es.map fun e => e.1.name).Nodup) {text : Property × Value → String}
    (h : ∀ e ∈ es, c.writeProperty s e.1 e.2 = .ok (text e)) :
    c.writeAs s (.object (conceptFields d es)) d.fqn =
      .ok (if d.properties.isEmpty then d.name else " ".intercalate (es.map text)) := by
  obtain ⟨hclass, hfind⟩ := find_conceptFields (d := d) hkeys
  have hactual : c.actualType d (.object (conceptFields d es)) = .ok d := by
    simp [actualType, Value.get?, hclass, habstract]
  have hproperties : writeProperties d (.object (conceptFields d es))
      (c.writableEntries s (conceptFields d es)) = .ok (" ".intercalate (es.map text)) := by
    rw [writeProperties]
    refine Outcome.bind_eq_ok.mpr ⟨es.map text, ?_, rfl⟩
    rw [hes, Outcome.mapM_eq_ok_iff, List.forall₂_map_left_iff, List.forall₂_map_right_iff]
    refine List.forall₂_same.mpr fun e he => ?_
    rw [find_writableEntries, hfind e he, ← h e he]
    by_cases hnull : e.2.isNull = true
    · simp [hnull, writeProperty, Writable.property, writable]
    · simp [hnull, writeProperty]
  rw [writeAs_declared hc hd hmoney, if_neg (by simp [henum]), hactual]
  change (if _ then _ else writeProperties d _ (c.writableEntries s (conceptFields d es))) = _
  rw [hproperties]
  split <;> rfl

/-- **The values of concepts are written** when those of their properties are. -/
theorem TypedRules.inverted_concept (hc : c.Built) (hset : c.TypedRules set) {d : SchemaType}
    (hd : c.types.find? d.fqn = some d) (hmoney : d.fqn ≠ Monetary.typeName)
    (henum : d.isEnum = false) (habstract : d.abstract = false) {e : Derivation}
    (hinside : ∀ e' ∈ e.inside, ∀ T, c.IsType T → c.Inverted s set ctx T e') :
    c.Inverted s set ctx d.fqn e := by
  intro cs v h hv
  obtain ⟨hfind, es, hes, hkeys, rfl, hparts⟩ :=
    hset.concept_value hc hd hmoney henum habstract h hv
  have htexts : ∀ x ∈ es, ∃ text, c.writeProperty s x.1 x.2 = .ok text ∧
      Reads set ctx (SchemaType.propertySymbol x.1) text.toList x.2 := by
    intro x hx
    obtain ⟨cs, e', _, hd', hwithin, hv⟩ := hparts x hx
    have hp : x.1 ∈ d.properties := hes ▸ List.mem_map_of_mem hx
    exact hset.property_inverted (fun e'' he'' => hinside e'' (hwithin he'') _
      (hc.isType_ruleName hd hp)) hd' hv
  choose! text htext using htexts
  exact ⟨rfl, _, write_concept hc hd hmoney henum habstract hes hkeys fun x hx => (htext x hx).1,
    reads_concept (hc.nodup_keys hd) hfind hes fun x hx => (htext x hx).2⟩

/-! ### Abstract types -/

/-- **The value of an abstract type** is that of one of its subtypes. -/
theorem TypedRules.abstract_value (hc : c.Built) (hset : c.TypedRules set) {d : SchemaType}
    (hd : c.types.find? d.fqn = some d) (hmoney : d.fqn ≠ Monetary.typeName)
    (henum : d.isEnum = false) (habstract : d.abstract = true) {cs : List Char} {e : Derivation}
    {v : Value} (h : Derives set (.rule d.fqn) cs e) (hv : e.evaluate set ctx = .ok v) :
    set.find? d.fqn = some (d.ruleOf ((c.subtypes d.fqn).map fun t => [.rule t.fqn]) none) ∧
      ∃ t ∈ c.subtypes d.fqn, ∃ e' ∈ e.inside, Derives set (.rule t.fqn) cs e' ∧
        e'.evaluate set ctx = .ok v := by
  obtain ⟨r, _, _, _, hfind, _⟩ := derives_rule_iff.mp h
  have hr : r = d.ruleOf ((c.subtypes d.fqn).map fun t => [.rule t.fqn]) none := by
    have hr := hset.declared hd hmoney hfind
    rw [rulesOf, if_neg (by simp [henum]), if_neg hmoney, if_pos habstract] at hr
    obtain ⟨r', hr', heq⟩ := Outcome.map_eq_ok.mp hr
    obtain rfl : r' = r := by simpa using heq
    rw [abstractRule, concreteSubtypes_eq hc.sound.types (Table.mem_names_of_find hd)] at hr'
    simp only [bind, Except.bind] at hr'
    split at hr'
    · cases hr'
    · exact (Except.ok.inj hr').symm
  subst hr
  obtain ⟨q, alternative, ds, vs, rfl, hq, hds, hvs, happly⟩ := Derivation.node_of_derives h hv hfind
  obtain ⟨t, ht, rfl⟩ := List.mem_map.mp (List.mem_of_getElem? hq)
  obtain ⟨e, rfl, he⟩ := derivesAll_singleton_iff.mp hds
  obtain ⟨w, hw, rfl⟩ := Derivation.evaluateAll_singleton_eq_ok.mp hvs
  obtain rfl : w = v := Except.ok.inj happly
  exact ⟨hfind, t, ht, e, Derivation.within_subset_withinAll (by simp) e.self_mem_within, he, hw⟩

/-- **The values of abstract types are written** as those of their subtypes. -/
theorem TypedRules.inverted_abstract (hc : c.Built) (hset : c.TypedRules set)
    (hapart : c.EnumsApart) {d : SchemaType}
    (hd : c.types.find? d.fqn = some d) (hmoney : d.fqn ≠ Monetary.typeName)
    (henum : d.isEnum = false) (habstract : d.abstract = true) {e : Derivation}
    (hinside : ∀ e' ∈ e.inside, ∀ T, c.IsType T → c.Inverted s set ctx T e') :
    c.Inverted s set ctx d.fqn e := by
  intro cs v h hv
  obtain ⟨hfind, t, ht, e, hmem, he, hw⟩ := hset.abstract_value hc hd hmoney henum habstract h hv
  obtain ⟨htypes, htabstract⟩ := mem_subtypes ht
  have htfind := find_of_mem hc.sound.types htypes
  have htmoney := hc.subtypes_not_monetary ht
  have htenum := hapart d hd habstract t ht
  obtain ⟨hnull, text, hwrite, hread⟩ :=
    hinside e hmem t.fqn (.inr (Table.mem_names_of_find htfind)) cs v he hw
  obtain ⟨q, hq⟩ := List.mem_iff_getElem?.mp ht
  have halternative : (d.ruleOf ((c.subtypes d.fqn).map fun t => [.rule t.fqn]) none).alternatives[q]?
      = some [.rule t.fqn] := by
    simp [SchemaType.ruleOf, hq]
  refine ⟨hnull, text, ?_, reads_rule hfind halternative (readsAll_singleton hread) rfl⟩
  -- the value names the subtype, so it is written as one
  obtain ⟨_, es, _, hkeys, rfl, _⟩ := hset.concept_value hc htfind htmoney htenum htabstract he hw
  have hclass := (find_conceptFields (d := t) hkeys).1
  have hactual : c.actualType d (.object (conceptFields t es)) =
      c.actualType t (.object (conceptFields t es)) := by
    simp [actualType, Value.get?, hclass, habstract, htabstract, get, htfind]
  rw [writeAs_declared hc hd hmoney, if_neg (by simp [henum]), hactual, ← hwrite,
    writeAs_declared hc htfind htmoney, if_neg (by simp [htenum])]

/-! ### All types -/

/-- **Every value of a type is written** when the doubles, dates and amounts of money in its
derivation are. -/
theorem TypedRules.inverted (hc : c.Built) (hset : c.TypedRules set) (hapart : c.EnumsApart)
    {T : String} (hT : c.IsType T) {e : Derivation} (hleaves : c.LeavesWritten s set ctx e) :
    c.Inverted s set ctx T e := by
  induction e using Derivation.inside_induction generalizing T with
  | h e ih =>
    have hinside : ∀ e' ∈ e.inside, ∀ T, c.IsType T → c.Inverted s set ctx T e' := by
      intro e' he' T hT
      have hwithin : e' ∈ e.within := by
        rw [Derivation.within_eq]
        exact List.mem_cons_of_mem _ he'
      exact ih e' he' hT (hleaves.of_mem hwithin)
    by_cases hleaf : IsLeaf T
    · intro cs v h hv
      have hwritten := hleaves e e.self_mem_within T cs v hleaf h hv
      exact ⟨not_null_of_leaf hleaf hwritten.choose_spec.1, hwritten⟩
    rcases hT with hT | hT
    · exact hset.inverted_primitive hT hleaf e
    · obtain ⟨d, hd⟩ := Table.exists_find hT
      obtain ⟨_, rfl⟩ := mem_of_find_fqn hc.sound.types hd
      have hmoney : d.fqn ≠ Monetary.typeName := fun h => hleaf (.inr (.inr h))
      by_cases henum : d.isEnum = true
      · exact hset.inverted_enum hc hd hmoney henum e
      have henum : d.isEnum = false := by simpa using henum
      by_cases habstract : d.abstract = true
      · exact hset.inverted_abstract hc hapart hd hmoney henum habstract hinside
      · exact hset.inverted_concept hc hd hmoney henum (by simpa using habstract) hinside

end

/-- **Writing inverts the rules that go with a type.** A value that a derivation from the
rule of any type has is written as a text that is read as the same value, and so is the
value of any property with its cardinality. -/
theorem written_of_derives {c : Catalog} (hc : c.Built) {s : Settings} {root : String}
    {set : RuleSet} (hrules : c.rules s root = .ok set) (hapart : c.EnumsApart)
    {ctx : ReadingContext} {e : Derivation} (hleaves : c.LeavesWritten s set ctx e)
    {cs : List Char} {v : Value} (hv : e.evaluate set ctx = .ok v) :
    (∀ T, c.IsType T → Derives set (.rule T) cs e → c.Written s set ctx T v) ∧
    ∀ d p, c.types.find? d.fqn = some d → p ∈ d.properties →
      Derives set (SchemaType.propertySymbol p) cs e →
      ∃ text, c.writeProperty s p v = .ok text ∧
        Reads set ctx (SchemaType.propertySymbol p) text.toList v := by
  have hset := hc.typedRules hrules
  refine ⟨fun T hT h => (hset.inverted hc hapart hT hleaves cs v h hv).2, fun d p hd hp h => ?_⟩
  exact hset.property_inverted (fun e' he' =>
    hset.inverted hc hapart (hc.isType_ruleName hd hp) (hleaves.of_mem he')) h hv

end Catalog

/-! ### Parts of items -/

namespace Shop

theorem enumsApart : catalog.EnumsApart := by
  refine built.enumsApart ?_
  obtain ⟨types, hcatalog, _⟩ := catalog_eq
  rw [hcatalog]
  decide_cbv

/-- The rules that go with items hold the rules of texts and of parts. -/
theorem rules_item : ∃ set, catalog.rules {} item.fqn = .ok set ∧
    set.find? "String" = some (patternRule "String" "\"(?:[^\"\\\\]|\\\\.)*\"" "string") ∧
    set.find? part.fqn = some part.conceptRule := by
  have hdate : ∃ w, DateTime.rule ({} : Settings).dateFormat = .ok w := ⟨_, rfl⟩
  obtain ⟨w, hw⟩ := hdate
  obtain ⟨set, hset, hwell, hnames, _⟩ := Catalog.rules_spec built.sound.types hw
    (Table.mem_names_of_find find_types.2.1) (fun h => absurd (reached_item h) (by decide))
    (fun d hd h habstract => by
      rw [reached_item h] at hd
      cases find_types.1.symm.trans hd
      cases habstract)
  have htyped := built.typedRules hset
  have hfind : ∀ {x}, catalog.TypeRule {} item.fqn x → ∃ r, set.find? x = some r := by
    intro x hx
    obtain ⟨r, hr, hname⟩ := List.mem_map.mp ((hnames x).mpr hx)
    exact ⟨r, hwell.find_eq_some_iff.mpr ⟨hr, hname⟩⟩
  obtain ⟨r, hr⟩ := hfind (x := "String") (.inl (by simp [primitiveRuleNames]))
  have hleads : catalog.Leads item.fqn part.fqn :=
    ⟨item, find_types.2.1, List.mem_singleton.mpr rfl⟩
  have hpart : catalog.TypeRule {} item.fqn part.fqn :=
    .inr ⟨part, find_types.1, .single hleads, by decide, Catalog.fqn_mem_ownRuleNames part⟩
  obtain ⟨q, hq⟩ := hfind hpart
  obtain rfl := htyped.primitive (t := .string) rfl rfl hr
  obtain rfl := htyped.concept find_types.1 (by decide) rfl rfl hq
  exact ⟨set, hset, hr, hq⟩

def lidDerivation : Derivation :=
  .node part.fqn 0 [.node "String" 0 [.token "\"lid\""]]

def lid : Value :=
  .object [(classKey, .text part.fqn), ("label", .text "lid")]

/-- The part is written, and so is its label. -/
theorem written_lid : ∃ set, catalog.Built ∧ catalog.rules {} item.fqn = .ok set ∧
    catalog.EnumsApart ∧ catalog.LeavesWritten {} set {} lidDerivation ∧
    Derives set (.rule part.fqn) "\"lid\"".toList lidDerivation ∧
    lidDerivation.evaluate set {} = .ok lid ∧ catalog.Written {} set {} part.fqn lid := by
  obtain ⟨set, hset, htext, hpart⟩ := rules_item
  have haccepts : (Symbol.pattern "\"(?:[^\"\\\\]|\\\\.)*\"").Accepts "\"lid\"".toList :=
    Symbol.accepts_string "lid"
  have hderives : Derives set (.rule part.fqn) "\"lid\"".toList lidDerivation := by
    refine derives_rule_iff.mpr ⟨_, 0, [.rule "String"], _, hpart, rfl,
      derivesAll_singleton_iff.mpr ⟨_, rfl, derives_rule_iff.mpr ⟨_, 0, [_], _, htext, rfl,
        derivesAll_singleton_iff.mpr ⟨_, rfl, ?_⟩, rfl⟩⟩, rfl⟩
    exact (derives_token_iff (by simp [Symbol.pattern]) rfl).mpr ⟨haccepts, by rw [String.ofList_toList]⟩
  have hlabel : (Derivation.node "String" 0 [.token "\"lid\""]).evaluate set {} = .ok (.text "lid") :=
    Derivation.evaluate_node_eq_ok.mpr ⟨_, _, rfl, htext, by cbv⟩
  have hvalue : lidDerivation.evaluate set {} = .ok lid :=
    Derivation.evaluate_node_eq_ok.mpr ⟨_, _,
      Derivation.evaluateAll_singleton_eq_ok.mpr ⟨_, hlabel, rfl⟩, hpart, rfl⟩
  have hleaves : catalog.LeavesWritten {} set {} lidDerivation := by
    intro e he T cs v hleaf h _
    obtain ⟨_, _, _, _, _, _, _, rfl⟩ := derives_rule_iff.mp h
    simp [lidDerivation, Derivation.within, Derivation.withinAll] at he
    rcases hleaf with rfl | rfl | rfl <;> simp [part, Monetary.typeName] at he
  exact ⟨set, built, hset, enumsApart, hleaves, hderives, hvalue,
    (Catalog.written_of_derives built hset enumsApart hleaves hvalue).1 part.fqn
      (.inr (Table.mem_names_of_find find_types.1)) hderives⟩

end Shop

end Covenant
