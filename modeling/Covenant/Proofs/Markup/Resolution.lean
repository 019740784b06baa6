import Covenant.Proofs.Markup.Closure
import Covenant.Proofs.Markup.Containers

/-!
What the references between the rules of a template stand for.

* `Compiler.Resolves`: a rule set has the rule of a node, and what it refers to is the rule
  that is meant: of the property's type, of the format, or of the levels of the block.
* `Compiler.Placed`: a name is that of a level of a template or of a node of one.
* `Compiler.Uncaptured`: all references in a rule set are of this kind.
* `Compiler.uncaptured_of_compile`: so it is with the rules of a template, unless a rule of the
  template has the name of that of a format, or two formats have rules of the same name.
-/

namespace Covenant

/-- The rule of a type: among those of the primitive types, or those of a declared one. -/
def Catalog.RuleOf (c : Catalog) (s : Settings) (T : String) (r : Rule) : Prop :=
  r.name = T ∧ ((∃ base, primitiveRules s = .ok base ∧ r ∈ base) ∨
    ∃ e rs, c.types.find? T = some e ∧ c.rulesOf e = .ok rs ∧ r ∈ rs)

namespace Markup.Compiler

/-- A format that a template is made with: it is asked for by a node, or is a default one. -/
def Uses (c : Compiler) (nodes : List Node) (d : SchemaType) (k : Formatted) (f : String) : Prop :=
  c.Asks nodes d k f ∨ ∃ T, Catalog.DefaultFormat c.settings T k f

/-! ### The rules of nodes -/

/-- **What the rule of a node refers to.** The rule of a node is found under its name, and what
it refers to is found as well: the rule of the property's type, which is that of texts for a
relationship; the rule of the very format that is asked for; the rules of the block's levels; and
the rule of any text for an expression. -/
inductive Resolves (c : Compiler) (s : RuleSet) (d : SchemaType) (name : String) : Node → Prop where
  | text {body : String} {last : Bool} {place : Text.Position}
      (h : s.Holds (textRule body name)) : Resolves c s d name (.text body last place)
  | expression {body : String} {place : Text.Position}
      (h : s.Holds (referenceRule name anyRule ("expression " ++ body) .one))
      (htarget : s.Holds Catalog.anyTextRule) : Resolves c s d name (.expression body place)
  | plain {field : String} {place : Text.Position} {p : Property} {r : Rule}
      (hp : d.property? field = some p)
      (h : s.Holds (referenceRule name p.ruleName (d.fqn ++ "." ++ field) p.cardinality))
      (hr : c.catalog.RuleOf c.settings p.ruleName r) (htarget : s.Holds r) :
      Resolves c s d name (.binding field none place)
  | binding {field format : String} {place : Text.Position} {p : Property} {k : Formatted} {r : Rule}
      (hp : d.property? field = some p) (hk : Formatted.ofType? p.type = some k)
      (hr : k.rule format = .ok r)
      (h : s.Holds (referenceRule name r.name (d.fqn ++ "." ++ field) p.cardinality))
      (htarget : s.Holds r) : Resolves c s d name (.binding field (some format) place)
  | formatted {field format : String} {place : Text.Position} {p : Property} {k : Formatted}
      {r : Rule} (hp : d.property? field = some p) (hk : Formatted.ofType? p.type = some k)
      (hr : k.rule format = .ok r)
      (h : s.Holds (referenceRule name r.name (d.fqn ++ "." ++ field) p.cardinality))
      (htarget : s.Holds r) : Resolves c s d name (.formatted field format place)
  | shown {field whenTrue : String} {place : Text.Position}
      (h : s.Holds (branchRule (d.fqn ++ "." ++ field) whenTrue "" name)) :
      Resolves c s d name (.shown field whenTrue place)
  | choice {field whenTrue whenFalse : String} {place : Text.Position}
      (h : s.Holds (branchRule (d.fqn ++ "." ++ field) whenTrue whenFalse name)) :
      Resolves c s d name (.choice field whenTrue whenFalse place)
  | nested {e : SchemaType} {field id : String} {kind : BlockKind} {nodes : List Node}
      {place : Text.Position} {p : Property} (hkind : ∀ style, kind ≠ .list style)
      (hp : d.property? field = some p) (he : c.catalog.types.find? p.type = some e)
      (h : s.Holds (referenceRule name field
        (d.fqn ++ "." ++ field ++ " (" ++ kind.keyword ++ ")") p.cardinality))
      (htarget : s.Holds (containerRule e field id nodes)) :
      Resolves c s d name (.block kind field nodes place)
  | list {e : SchemaType} {field id id' : String} {style : ListStyle}
      {nodes first later : List Node} {place : Text.Position} {p : Property}
      (hp : d.property? field = some p) (he : c.catalog.types.find? p.type = some e)
      (h : s.Holds (itemsRule name (field ++ "First") field (d.fqn ++ "." ++ field)))
      (hfirst : lead (style.leads c.settings).1 nodes = .ok first)
      (hlater : lead (style.leads c.settings).2 nodes = .ok later)
      (hfirstTarget : s.Holds (containerRule e (field ++ "First") id first))
      (hlaterTarget : s.Holds (containerRule e field id' later)) :
      Resolves c s d name (.block (.list style) field nodes place)

/-- The name of a level of a template, or of a node of a level. -/
inductive Placed (c : Compiler) (d : SchemaType) (template : List Node) : String → Prop where
  | level {e : SchemaType} {stem : String} {nodes : List Node}
      (h : LevelOf c d template e stem nodes) : Placed c d template stem
  | node {e : SchemaType} {stem : String} {nodes : List Node} {n : Node} {i : Nat}
      (h : LevelOf c d template e stem nodes) (hn : nodes[i]? = some n)
      (hsilent : n.silent = false) : Placed c d template (stem ++ toString i)

/-- **No rule is taken for another.** All rules have names of their own, and no two of the
template's were made under one name. Every level and every node has its rule, whose references
are what they should be, and so have the types, whose rules refer to each other. There are no
other rules, but for those of the formats that are asked for, which refer to nothing. -/
structure Uncaptured (c : Compiler) (d : SchemaType) (template : List Node)
    (types set : RuleSet) : Prop where
  names : set.names.Nodup
  fresh : Fresh (c.emissions template d)
  level : ∀ {e stem nodes}, LevelOf c d template e stem nodes →
    ∃ id, set.Holds (containerRule e stem id nodes)
  node : ∀ {e stem nodes n} {i : Nat}, LevelOf c d template e stem nodes → nodes[i]? = some n →
    n.silent = false → Resolves c set e (stem ++ toString i) n
  given : ∀ r ∈ types.rules, set.Holds r ∧ ∀ x ∈ r.references, x ∈ types.names
  all : ∀ r ∈ set.rules, r ∈ types.rules ∨ Placed c d template r.name ∨
    (∃ k f, c.Asks template d k f ∧ k.rule f = .ok r) ∧ r.references = []

/-! ### Where names come from -/

section

variable {c : Compiler} {d e : SchemaType} {template nodes : List Node} {stem x : String}
  {set : RuleSet}

/-- A text in front of a level brings no format. -/
theorem formats_lead {start : String} {led : List Node} (hled : lead start nodes = .ok led)
    (d : SchemaType) : c.formats led d ⊆ c.formats nodes d := by
  intro y hy
  obtain ⟨n, hn, hy⟩ := mem_formats.mp hy
  rcases mem_of_lead hled hn with hn | ⟨body, last, place, rfl⟩
  · exact mem_formats.mpr ⟨n, hn, hy⟩
  · cases hy

/-- The formats of a level are formats of the template. -/
theorem formats_levelOf (h : LevelOf c d template e stem nodes) :
    c.formats nodes e ⊆ c.formats template d := by
  have hblock : ∀ {d e : SchemaType} {kind field inner place nodes} {p : Property},
      d.property? field = some p → c.catalog.types.find? p.type = some e →
      Node.block kind field inner place ∈ nodes → c.formats inner e ⊆ c.formats nodes d :=
    fun hp he hn y hy => mem_formats.mpr ⟨_, hn, by rwa [formatsOf_block hp he]⟩
  induction h with
  | top => exact List.Subset.refl _
  | nested _ hn _ hp he ih => exact fun y hy => ih (hblock hp he hn hy)
  | first _ hn hp he hled ih | later _ hn hp he hled ih =>
    exact fun y hy => ih (hblock hp he hn (formats_lead hled _ hy))

theorem ledEmitters_emittersOf {start : String} {led : List Node}
    (hled : lead start nodes = .ok led) :
    ledEmitters start (c.emittersOf nodes) = c.emittersOf led := by
  have hlead := @leadMembers_map Emitter Emitter.node textEmitter (fun n => ⟨n, c.emissionsOf n⟩)
    (fun _ => rfl) (fun _ _ _ => rfl) start nodes
  rw [hled, ← emittersOf_eq_map] at hlead
  rw [ledEmitters, hlead, emittersOf_eq_map c led]
  rfl

/-- The names of the rules of a level: that of its stem, those of its nodes, and those that come
before them. -/
theorem own_mem_levelEmissions (h : .own x ∈ levelEmissions stem d (c.emittersOf nodes)) :
    x = stem ∨ ∃ (i : Nat) (n : Node), nodes[i]? = some n ∧ n.silent = false ∧
      (x = stem ++ toString i ∨ .own x ∈ c.emissionsOf n d) := by
  rw [levelEmissions, emittersOf_eq_map] at h
  rcases List.mem_append.mp h with h | h
  · obtain ⟨⟨m, i⟩, hm, h⟩ := List.mem_flatMap.mp h
    have hi := List.mk_mem_zipIdx_iff_getElem?.mp hm
    rw [List.getElem?_map, Option.map_eq_some_iff] at hi
    obtain ⟨n, hn, rfl⟩ := hi
    by_cases hsilent : n.silent = true
    · simp [hsilent] at h
    · simp only [hsilent, Bool.false_eq_true, if_false, List.mem_append, List.mem_singleton,
        Emission.own.injEq] at h
      exact .inr ⟨i, n, hn, by simpa using hsilent, h.symm⟩
  · exact .inl (Emission.own.inj (List.mem_singleton.mp h))

theorem own_notMem_formatEmissions {field : String} {format : Option String} :
    .own x ∉ formatEmissions d field format := by
  unfold formatEmissions
  split <;> simp

/-- The rules of a level have the names of levels and nodes if those before its nodes do. -/
theorem placed_of_level (hlevel : LevelOf c d template e stem nodes)
    (h : ∀ m ∈ numbered stem nodes, m.2 ∈ nodes →
      ∀ x, .own x ∈ c.emissionsOf m.2 e → Placed c d template x)
    {x : String} (hx : .own x ∈ levelEmissions stem e (c.emittersOf nodes)) :
    Placed c d template x := by
  rcases own_mem_levelEmissions hx with rfl | ⟨i, n, hn, hsilent, rfl | hx⟩
  · exact .level hlevel
  · exact .node hlevel hn hsilent
  · exact h _ (mem_numbered hn hsilent) (List.mem_of_getElem? hn) x hx

/-- **The rules that come before that of a node** have the names of levels and nodes of the
template. The induction goes through the levels of blocks. -/
theorem placed_of_ruled {name : String} {n : Node} (h : Ruled c set e name n)
    (hlevel : LevelOf c d template e stem nodes) (hn : n ∈ nodes) :
    ∀ x, .own x ∈ c.emissionsOf n e → Placed c d template x := by
  induction h generalizing stem nodes with
  | text | expression | shown | choice => exact fun _ hx => nomatch hx
  | binding | formatted => exact fun _ hx => absurd hx own_notMem_formatEmissions
  | @nested e e' name field kind inner place p hkind hp he _ _ _ ih =>
    intro x hx
    rw [emissionsOf, blockEmissions_eq hp he.found] at hx
    have hinner := LevelOf.nested hlevel hn hkind hp he.found
    cases kind with
    | clause => exact placed_of_level hinner (fun m hm hmem => ih m hm hinner hmem) hx
    | within => exact placed_of_level hinner (fun m hm hmem => ih m hm hinner hmem) hx
    | list style => exact absurd rfl (hkind style)
  | list hp _ he _ hfirst hlater _ _ _ _ ihFirst ihLater =>
    intro x hx
    have hfirsts := LevelOf.first hlevel hn hp he.found hfirst
    have hlaters := LevelOf.later hlevel hn hp he.found hlater
    rw [emissionsOf, blockEmissions_eq hp he.found] at hx
    simp only [ledEmitters_emittersOf hfirst, ledEmitters_emittersOf hlater] at hx
    rcases List.mem_append.mp hx with hx | hx
    · exact placed_of_level hfirsts (fun m hm hmem => ihFirst m hm hfirsts hmem) hx
    · exact placed_of_level hlaters (fun m hm hmem => ihLater m hm hlaters hmem) hx

end

/-! ### What names stand for -/

/-- The rules of different formats that a template is made with have different names, and none of
them is that of a rule of the template's own. -/
structure FormatsApart (c : Compiler) (nodes : List Node) (d : SchemaType) (set : RuleSet) :
    Prop where
  own : ∀ r ∈ set.rules, r.origin = .template → ∀ k f, c.Uses nodes d k f → r.name ≠ k.ruleName f
  names : ∀ k f g, c.Uses nodes d k f → c.Uses nodes d k g → k.ruleName f = k.ruleName g → f = g

theorem isName_mem_primitiveRuleNames {T : String} (h : Primitive.isName T = true) (s : Settings) :
    T ∈ primitiveRuleNames s := by
  obtain ⟨t, ht⟩ := Option.isSome_iff_exists.mp h
  have hmem := Table.mem_of_find ht
  simp only [Primitive.names, List.mem_cons, Prod.mk.injEq, List.not_mem_nil, or_false] at hmem
  rcases hmem with ⟨rfl, _⟩ | ⟨rfl, _⟩ | ⟨rfl, _⟩ | ⟨rfl, _⟩ | ⟨rfl, _⟩ | ⟨rfl, _⟩ <;>
    simp [primitiveRuleNames]

section

variable {c : Compiler} {d : SchemaType} {template : List Node} {own types set : RuleSet}

/-- **The rule of a type** is found under the name of the type. -/
theorem Joined.ruleOf {asked : Formatted → String → Prop} (h : c.Joined asked d own types set)
    (hc : c.catalog.Built) {T : String} (hT : c.catalog.IsType T) {r : Rule}
    (hr : set.find? T = some r) : c.catalog.RuleOf c.settings T r := by
  obtain ⟨hwell, base, reached, hbase, hreached, hmem⟩ := Catalog.mem_rules h.given
  have hline : '_' ∉ T.toList ∨ '.' ∈ T.toList :=
    hT.imp (fun hT => (Primitive.char_of_isName hT).2) hc.dotted
  rcases h.find hr with hr | hr
  · rcases hT with hT | hT
    · obtain ⟨w, hw⟩ := rules_of_date h.given
      obtain ⟨base', hbase', hnames, _⟩ := primitiveRules_spec hw
      cases hbase.symm.trans hbase'
      obtain ⟨q, hq, rfl⟩ :=
        List.mem_map.mp (hnames ▸ isName_mem_primitiveRuleNames hT c.settings)
      exact absurd hr (h.apart hbase hq (Primitive.char_of_isName hT).2)
    · exact absurd hr (h.undotted (hc.dotted hT))
  · obtain ⟨hr, hname⟩ := hwell.find_eq_some_iff.mp hr
    refine ⟨hname, ?_⟩
    rcases hmem r hr with hr | ⟨e, he, rs, hrs, hr⟩
    · exact .inl ⟨base, hbase, hr⟩
    · obtain ⟨reached', hreached', hfound⟩ :=
        Catalog.textTypes_spec hc.sound.types (Catalog.mem_names_of_rules h.given)
      cases hreached.symm.trans hreached'
      rcases Catalog.name_of_rulesOf hrs hr with heq | heq
      · rw [← hname, heq]
        exact .inr ⟨e, rs, ((hfound e).mp he).1, hrs, hr⟩
      · rw [hname] at heq
        rcases hline with hline | hpoint
        · exact absurd (heq ▸ mem_formatRuleName _ _) hline
        · exact absurd (heq ▸ hpoint) (not_dotted_formatRuleName (by decide) _)

/-- **The rule of a format** is found under the name of the format. -/
theorem Joined.format (h : c.Joined (c.Asks template d) d own types set) (hc : c.catalog.Built)
    (hapart : c.FormatsApart template d set) {k : Formatted} {f : String} {q r : Rule}
    (hf : c.Uses template d k f) (hr : k.rule f = .ok r) (hq : set.find? r.name = some q) :
    q = r := by
  have hrname := (Formatted.rule_spec hr).1
  have hqmem := List.mem_of_find?_eq_some hq
  have hqname : q.name = k.ruleName f := hrname ▸ (by simpa using List.find?_some hq)
  -- a rule of a format by the same name is that of the same format
  have hsame : ∀ {g}, c.Uses template d k g → k.rule g = .ok q → q = r := by
    intro g hg hgq
    obtain rfl := hapart.names k f g hf hg (hqname.symm.trans (Formatted.rule_spec hgq).1)
    exact Except.ok.inj (hgq.symm.trans hr)
  rcases h.find hq with hfind | hfind
  · obtain ⟨⟨_, horigin | ⟨k', g, hg, hgq⟩⟩, _⟩ := h.beside hfind
    · exact absurd hqname (hapart.own q hqmem horigin k f hf)
    · obtain rfl := Formatted.kind_of_ruleName ((Formatted.rule_spec hgq).1.symm.trans hqname)
      exact hsame (.inl hg) hgq
  · have hmem := ((Catalog.mem_rules h.given).1.find_eq_some_iff.mp hfind).1
    obtain ⟨T, g, hg, hgq⟩ := (hc.typeFormats h.given).format hmem hqname
    exact hsame (.inr ⟨T, hg⟩) hgq

/-- The rules of the template and of types have names of their own together. -/
theorem Joined.wellFormed {asked : Formatted → String → Prop} (h : c.Joined asked d own types set)
    (hown : own.WellFormed) : set.WellFormed := by
  have htypes := (Catalog.mem_rules h.given).1
  constructor
  · rw [RuleSet.names, h.joins, List.map_append]
    refine List.nodup_append.mpr ⟨hown.names, htypes.names.sublist (List.filter_sublist.map _), ?_⟩
    rintro x hx _ hy rfl
    obtain ⟨r, hr, rfl⟩ := List.mem_map.mp hy
    have hfree : own.has r.name = false := by simpa using (List.mem_filter.mp hr).2
    exact absurd (RuleSet.has_iff.mpr hx) (by simp [hfree])
  · intro r hr
    rw [h.joins] at hr
    rcases List.mem_append.mp hr with hr | hr
    · exact hown.filled r hr
    · exact htypes.filled r (List.mem_filter.mp hr).1

/-- **The rules of types** are found under their names: a rule of the template by such a name is
that of the same default format. -/
theorem Joined.holds_types (h : c.Joined (c.Asks template d) d own types set)
    (hc : c.catalog.Built) (hapart : c.FormatsApart template d set) (hset : set.WellFormed)
    {r : Rule} (hr : r ∈ types.rules) : set.Holds r := by
  cases hown : own.find? r.name with
  | none =>
    have hfree : own.has r.name = false := by
      rw [Bool.eq_false_iff, Ne, RuleSet.has_iff]
      exact RuleSet.find_eq_none_iff.mp hown
    refine hset.find_eq_some_iff.mpr ⟨?_, rfl⟩
    rw [h.joins]
    exact List.mem_append_right _ (List.mem_filter.mpr ⟨hr, by simp [hfree]⟩)
  | some q =>
    obtain ⟨⟨_, horigin | ⟨k, g, _, hgq⟩⟩, hname⟩ := h.beside hown
    · exact absurd horigin (h.free r hr q hown)
    · have hrname : r.name = k.ruleName g := hname.symm.trans (Formatted.rule_spec hgq).1
      obtain ⟨T, f, hf, hfr⟩ := (hc.typeFormats h.given).format hr hrname
      have hq : set.find? r.name = some q :=
        hname ▸ RuleSet.extends_append h.joins q (RuleSet.holds_of_find hown)
      obtain rfl := h.format hc hapart (.inr ⟨T, hf⟩) hfr hq
      exact hq

end

/-! ### Whole templates -/

section

variable {c : Compiler} {d e : SchemaType} {template nodes : List Node} {own types set : RuleSet}

theorem mem_references_referenceRule (name target comment : String) (cardinality : Cardinality) :
    target ∈ (referenceRule name target comment cardinality).references :=
  Rule.mem_references.mpr
    ⟨_, List.mem_singleton_self _, _, List.mem_singleton_self _, rfl, rfl⟩

/-- The type of a level is one of the catalog. -/
theorem find_levelOf (hc : c.catalog.Built) (hd : c.catalog.types.find? d.fqn = some d)
    {stem : String} (h : LevelOf c d template e stem nodes) :
    c.catalog.types.find? e.fqn = some e := by
  have hfind : ∀ {T e}, c.catalog.types.find? T = some e → c.catalog.types.find? e.fqn = some e :=
    fun h => (Catalog.mem_of_find_fqn hc.sound.types h).2 ▸ h
  cases h with
  | top => exact hd
  | nested _ _ _ _ he | first _ _ _ he _ | later _ _ _ he _ => exact hfind he

/-- A reference to the rule of a format stands for the rule of the format. -/
theorem Joined.holds_format (h : c.Joined (c.Asks template d) d own types set)
    (hc : c.catalog.Built) (hapart : c.FormatsApart template d set) (hcheck : set.check = .ok ())
    {field format name target comment : String} {cardinality : Cardinality} {p : Property}
    (hp : e.property? field = some p)
    (hasks : ∀ x ∈ boundFormat e field format, c.Asks template d x.1 x.2)
    (htarget : Target p (some format) target)
    (hholds : set.Holds (referenceRule name target comment cardinality)) :
    ∃ k r, Formatted.ofType? p.type = some k ∧ k.rule format = .ok r ∧ r.name = target ∧
      set.Holds r := by
  obtain ⟨_, k, r, hk, hr, rfl⟩ := htarget
  have hrname := (Formatted.rule_spec hr).1
  obtain ⟨q, hq⟩ := RuleSet.exists_of_references hcheck (List.mem_of_find?_eq_some hholds)
    (mem_references_referenceRule _ _ _ _)
  rw [← hrname] at hq
  have hasked : c.Asks template d k format := hasks (k, format) (by simp [boundFormat, hp, hk])
  obtain rfl := h.format hc hapart (.inl hasked) hr hq
  exact ⟨k, q, hk, hr, hrname, hq⟩

/-- **The rule of a node refers to what is meant**, where a complete set rules it. -/
theorem Joined.resolves (h : c.Joined (c.Asks template d) d own types set)
    (hc : c.catalog.Built) (hapart : c.FormatsApart template d set) (hcheck : set.check = .ok ())
    (he : c.catalog.types.find? e.fqn = some e) {name : String} {n : Node}
    (hasks : ∀ x ∈ c.formatsOf n e, c.Asks template d x.1 x.2) (hn : Ruled c set e name n) :
    Resolves c set e name n := by
  have htarget : ∀ {target comment cardinality},
      set.Holds (referenceRule name target comment cardinality) → ∃ q, set.find? target = some q :=
    fun hr => RuleSet.exists_of_references hcheck (List.mem_of_find?_eq_some hr)
      (mem_references_referenceRule _ _ _ _)
  cases hn with
  | text hholds => exact .text hholds
  | expression hholds =>
    obtain ⟨q, hq⟩ := htarget hholds
    obtain rfl := (h.typedRules hc).any hq
    exact .expression hholds hq
  | @binding _ _ field target format _ p hp ht hholds =>
    cases format with
    | none =>
      cases ht
      obtain ⟨q, hq⟩ := htarget hholds
      have hrule := h.ruleOf hc (hc.isType_ruleName he (mem_of_property hp)) hq
      exact .plain hp hholds hrule (RuleSet.holds_of_find hq)
    | some format =>
      obtain ⟨k, r, hk, hr, rfl, hr'⟩ := h.holds_format hc hapart hcheck hp hasks ht hholds
      exact .binding hp hk hr hholds hr'
  | formatted hp ht hholds =>
    obtain ⟨k, r, hk, hr, rfl, hr'⟩ := h.holds_format hc hapart hcheck hp hasks ht hholds
    exact .formatted hp hk hr hholds hr'
  | shown _ _ _ _ hholds => exact .shown hholds
  | choice _ _ _ _ hholds => exact .choice hholds
  | nested hkind hp he hholds hlevel _ =>
    obtain ⟨id, hid⟩ := hlevel.rule
    rw [levelRule_numbered] at hid
    exact .nested hkind hp he.found hholds hid
  | list hp _ he hholds hfirst hlater hfirstLevel hlaterLevel _ _ =>
    obtain ⟨id, hid⟩ := hfirstLevel.rule
    obtain ⟨id', hid'⟩ := hlaterLevel.rule
    rw [levelRule_numbered] at hid hid'
    exact .list hp he.found hholds hfirst hlater hid hid'

/-- **No rule of a template is taken for another**: if the rules can be made, and those of the
formats keep apart, then every reference between them stands for the rule that is meant. -/
theorem uncaptured_of_compile (hc : c.catalog.Built) (hd : c.catalog.types.find? d.fqn = some d)
    {issued : Nat} (h : (c.compile template d issued).1 = .ok set)
    (hapart : c.FormatsApart template d set) :
    ∃ types, c.catalog.rules c.settings d.fqn = .ok types ∧ c.Uncaptured d template types set := by
  obtain ⟨⟨own, types, hown, hjoined⟩, hruled, hcheck, _⟩ := joined_of_compile hc hd h
  obtain ⟨hgrown, _⟩ := grown_of_nodeRules hc hd
    (knows_referable hc.sound.types d.fqn c.settings) ⟨hd, .refl⟩ hown
  have hset := hjoined.wellFormed hgrown.wellFormed
  refine ⟨types, hjoined.given, ⟨hset.names, ?_, ?_, ?_, ?_, ?_⟩⟩
  · exact (exists_absorb_iff.mp ⟨_, hgrown.names⟩).2
  · intro e stem nodes hlevel
    obtain ⟨id, hid⟩ := (hruled.levelOf hlevel).level.rule
    rw [levelRule_numbered] at hid
    exact ⟨id, hid⟩
  · intro e stem nodes n i hlevel hn hsilent
    refine hjoined.resolves hc hapart hcheck (find_levelOf hc hd hlevel) (fun x hx => ?_)
      ((hruled.levelOf hlevel).nodes _ (mem_numbered hn hsilent))
    exact formats_levelOf hlevel (mem_formats.mpr ⟨n, List.mem_of_getElem? hn, hx⟩)
  · intro r hr
    have hholds := hjoined.holds_types hc hapart hset hr
    obtain ⟨w, hw⟩ := rules_of_date hjoined.given
    rcases Catalog.rules_cases hc.sound.types hw (Table.mem_names_of_find hd) with
      ⟨types', htypes', hwell, _, hclosed⟩ | ⟨_, hfail, _⟩
    · cases hjoined.given.symm.trans htypes'
      refine ⟨hholds, fun x hx => ?_⟩
      rcases (hclosed r hr).references x hx with hknown | ⟨rfl, _⟩
      · exact hknown
      · obtain ⟨q, hq⟩ := RuleSet.exists_of_references hcheck (List.mem_of_find?_eq_some hholds) hx
        rcases hjoined.find hq with hq | hq
        · exact absurd hq (hjoined.undotted (hc.dotted (Table.mem_names_of_find hd)))
        · have hmem := hwell.find_eq_some_iff.mp hq
          exact hmem.2 ▸ RuleSet.mem_names hmem.1
    · cases hjoined.given.symm.trans hfail
  · intro r hr
    rw [hjoined.joins] at hr
    rcases List.mem_append.mp hr with hr | hr
    · obtain ⟨new, hnew, hall, _⟩ := hgrown.rules
      have hmem : r ∈ new := by simpa [hnew] using hr
      obtain ⟨new', hnew', hbeside⟩ := hjoined.adds
      obtain ⟨_, horigin | ⟨k, f, hf, hformat⟩⟩ := hbeside r (by simpa [hnew'] using hr)
      · have hplaced := placed_of_level .top
          (fun m hm hmem => placed_of_ruled (hruled.nodes m hm) .top hmem) ((hall r hmem).2 horigin)
        exact .inr (.inl hplaced)
      · exact .inr (.inr ⟨⟨k, f, hf, hformat⟩, List.eq_nil_iff_forall_not_mem.mpr fun x hx =>
          ((Formatted.rule_spec hformat).2.2 fun _ => False).references x hx⟩)
    · exact .inl (List.mem_filter.mp hr).1

end

end Markup.Compiler

end Covenant

/-! ### Bills with dates -/

namespace Covenant.Markup.Billing

open Compiler

def model : ModelFile where
  ns := "billing"
  declarations :=
    [{ kind := .concept, name := "Bill"
       properties := [{ name := "due", type := "DateTime" }, { name := "total", type := "Double" }] }]

def compiler : Compiler where
  catalog := (Catalog.system.add model.toValue).2
  identifier := toString

def bill : SchemaType where
  fqn := "billing.Bill"
  ns := "billing"
  name := "Bill"
  kind := .concept
  properties :=
    [{ name := "due", typeName := "DateTime", type := "DateTime" },
     { name := "total", typeName := "Double", type := "Double" }]

/-- A date in a format other than the default one, and an amount. -/
def billNodes : List Node :=
  [.binding "due" (some "YYYY-MM-DD") ⟨1, 3⟩, .text ": " false ⟨1, 24⟩,
    .binding "total" none ⟨1, 28⟩]

theorem formats_bill : compiler.formats billNodes bill = [(.date, "YYYY-MM-DD")] := by
  rfl

theorem apart_bill : ∃ set, (compiler.compile billNodes bill 0).1 = .ok set ∧
    compiler.FormatsApart billNodes bill set := by
  have htest : ((compiler.compile billNodes bill 0).1.toOption.any fun set =>
      set.rules.all fun r => r.origin != .template || !r.name.toList.contains '_') = true := by
    decide +kernel
  obtain ⟨set, hset, hrules⟩ := Outcome.exists_of_any htest
  have hdates : Formatted.date.ruleName "YYYY-MM-DD" ≠
      Formatted.date.ruleName compiler.settings.dateFormat := by
    decide +kernel
  refine ⟨set, hset, ⟨fun r hr horigin k f _ hname => ?_, ?_⟩⟩
  · have hline := List.all_eq_true.mp hrules r hr
    simp only [horigin, bne_self_eq_false, Bool.false_or, Bool.not_eq_true'] at hline
    simp [hname, k.mem_ruleName f] at hline
  · have hasked : ∀ {k f}, compiler.Asks billNodes bill k f → k = .date ∧ f = "YYYY-MM-DD" := by
      intro k f h
      rw [Asks, formats_bill] at h
      simpa using h
    rintro k f g (hf | ⟨_, hf⟩) (hg | ⟨_, hg⟩) hname
    · exact (hasked hf).2.trans (hasked hg).2.symm
    · obtain ⟨rfl, rfl⟩ := hasked hf
      cases hg
      exact absurd hname hdates
    · obtain ⟨rfl, rfl⟩ := hasked hg
      cases hf
      exact absurd hname.symm hdates
    · cases hf <;> cases hg <;> rfl

/-- The date is read in the format that it is bound in. -/
theorem resolves_due : ∃ set, (compiler.compile billNodes bill 0).1 = .ok set ∧
    Resolves compiler set bill "rule0" (.binding "due" (some "YYYY-MM-DD") ⟨1, 3⟩) := by
  obtain ⟨set, hset, hapart⟩ := apart_bill
  have hfind : compiler.catalog.types.find? bill.fqn = some bill := by decide +kernel
  obtain ⟨types, _, huncaptured⟩ :=
    uncaptured_of_compile (.add .system _ _) hfind hset hapart
  exact ⟨set, hset, @Uncaptured.node _ _ _ _ _ huncaptured _ _ _ _ 0 .top rfl rfl⟩

end Covenant.Markup.Billing
