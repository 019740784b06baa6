import Covenant.Proofs.Markup.Levels

/-!
When the rules of a well-typed template can be made.

* `compile_eq_ok_iff`: exactly when no own rule of the template has the name of an
  earlier one or of a rule of a type.
-/

namespace Covenant.Markup

theorem nodup_of_absorb {names names' : List String} {es : List Emission}
    (h : absorb names es = some names') (hnames : names.Nodup) : names'.Nodup := by
  induction es generalizing names with
  | nil =>
    cases h
    exact hnames
  | cons e es ih =>
    have happend : ∀ {x}, x ∉ names → (names ++ [x]).Nodup := fun hx =>
      List.nodup_append.mpr ⟨hnames, by simp, by
        intro a ha b hb hab
        exact hx (List.mem_singleton.mp hb ▸ hab ▸ ha)⟩
    cases e with
    | own x =>
      simp only [absorb] at h
      split at h
      · cases h
      · exact ih h (happend ‹_›)
    | shared x =>
      simp only [absorb] at h
      split at h
      · exact ih h hnames
      · exact ih h (happend ‹_›)

/-- The rules that a template adds to none have names of their own. -/
theorem Grown.wellFormed {known : String → Prop} {es : List Emission} {own : RuleSet}
    (h : Grown known es {} own) : own.WellFormed := by
  obtain ⟨new, hnew, hall, _⟩ := h.rules
  have hrules : own.rules = new := by simpa using hnew
  exact ⟨nodup_of_absorb h.names (by simp [RuleSet.names]),
    fun r hr => (hall r (hrules ▸ hr)).1.filled⟩

/-- A type of the catalog that its own properties do not lead back to, and whose
properties lead to abstract types only if there are types to choose from. -/
structure Grounded (c : Catalog) (root : SchemaType) : Prop where
  found : c.types.find? root.fqn = some root
  acyclic : ¬ Relation.TransGen c.Leads root.fqn root.fqn
  subtypes : ∀ d, c.types.find? d.fqn = some d → Relation.TransGen c.Leads root.fqn d.fqn →
    d.abstract = true → c.subtypes d.fqn ≠ []

namespace Compiler

/-! ### The rules of the types -/

/-- **Rules of types are added** unless the template has a rule of the name of one. -/
theorem addTypes_eq_ok_iff {c : Compiler} {set set' : RuleSet} {rs : List Rule}
    (hnames : (rs.map Rule.name).Nodup) :
    c.addTypes set rs = .ok set' ↔
      (∀ r ∈ rs, ∀ q, set.find? r.name = some q → q.origin ≠ .template) ∧
        set' = { set with rules := set.rules ++ rs.filter fun r => !set.has r.name } := by
  induction rs generalizing set with
  | nil => simp [addTypes, eq_comm]
  | cons r rs ih =>
    rw [List.map_cons, List.nodup_cons] at hnames
    have hhas : set.has r.name = (set.find? r.name).isSome := by
      rw [Bool.eq_iff_iff]
      simp [RuleSet.has, RuleSet.find?]
    unfold addTypes
    cases hfind : set.find? r.name with
    | none =>
      -- the new rule hides none of those that come after it
      have hrest : ∀ q ∈ rs, (r.name == q.name) = false := fun q hq =>
        beq_eq_false_iff_ne.mpr fun h => hnames.1 (List.mem_map.mpr ⟨q, hq, h.symm⟩)
      have hfinds : ∀ q ∈ rs,
          RuleSet.find? { set with rules := set.rules ++ [r] } q.name = set.find? q.name := by
        intro q hq
        simp [RuleSet.find?, hrest q hq]
      have hfilter : rs.filter (fun q => !RuleSet.has { set with rules := set.rules ++ [r] } q.name)
          = rs.filter fun q => !set.has q.name := by
        refine List.filter_congr fun q hq => ?_
        simp [RuleSet.has, hrest q hq]
      simp only [ih hnames.2, hfilter, List.mem_cons, forall_eq_or_imp, hfind]
      simp only [reduceCtorEq, false_imp_iff, implies_true, true_and]
      refine and_congr ?_ ?_
      · exact forall₂_congr fun q hq => by rw [hfinds q hq]
      · simp [hhas, hfind]
    | some present =>
      simp only [List.mem_cons, forall_eq_or_imp, hfind, Option.some.injEq, forall_eq']
      by_cases horigin : present.origin = .template
      · simp [horigin]
      · rw [if_neg horigin, ih hnames.2]
        simp [horigin, hhas, hfind]

/-! ### Whole templates -/

theorem Knows.mono {c : Catalog} {covers : SchemaType → Prop} {known known' : String → Prop}
    (h : Knows c covers known) (hsub : ∀ x, known x → known' x) : Knows c covers known' :=
  ⟨hsub _ h.any, fun hd p hp => hsub _ (h.property hd p hp), h.block⟩

/-- The rules of a type are what the rules of its template may refer to, and the type itself
if it leads back to itself. -/
theorem knows_referable {c : Catalog} (hc : Resolved c.types) (root : String) (s : Settings) :
    Knows c (fun d => c.types.find? d.fqn = some d ∧ Relation.ReflTransGen c.Leads root d.fqn)
      (fun x => c.TypeRule s root x ∨ c.Recurs root x) := by
  refine ⟨.inl (.inl (by simp [primitiveRuleNames, anyRule])), ?_, ?_⟩
  · rintro d ⟨hfind, hd⟩ p hp
    exact Catalog.typeRule_of_referable hc hfind hd (Catalog.referable_ruleName hp)
  · rintro d e p ⟨hfind, hd⟩ hp hprimitive hrelationship he
    obtain ⟨_, hfqn⟩ := Catalog.mem_of_find_fqn hc he
    rw [hfqn]
    refine ⟨he, hd.tail ⟨d, hfind, List.mem_append_right _ ?_⟩⟩
    exact List.mem_filterMap.mpr ⟨p, hp, by simp [Property.target?, hprimitive, hrelationship]⟩

/-- The rules of a type that does not lead back to itself. -/
theorem knows_typeRule {c : Catalog} (hc : Resolved c.types) {root : SchemaType}
    (hroot : Grounded c root) (s : Settings) :
    Knows c
      (fun d => c.types.find? d.fqn = some d ∧ Relation.ReflTransGen c.Leads root.fqn d.fqn)
      (c.TypeRule s root.fqn) :=
  (knows_referable hc root.fqn s).mono fun _ hx => hx.resolve_right fun h => hroot.acyclic h.2

/-- The rules of the types need a default format of dates. -/
theorem rules_of_date {c : Catalog} {s : Settings} {root : String} {set : RuleSet}
    (h : c.rules s root = .ok set) : ∃ r, DateTime.rule s.dateFormat = .ok r := by
  unfold Catalog.rules at h
  obtain ⟨base, hbase, _⟩ := Outcome.bind_eq_ok.mp h
  unfold primitiveRules at hbase
  obtain ⟨dates, hdates, _⟩ := Outcome.bind_eq_ok.mp hbase
  unfold dateRules at hdates
  obtain ⟨r, hr, _⟩ := Outcome.bind_eq_ok.mp hdates
  exact ⟨r, hr⟩

/-- Rules of the template that refer to each other, to types and to what may be missing,
together with those of the types that are not among them, lack nothing but that. -/
theorem fault_joined {own types : RuleSet} {missing : String → Prop} (htop : topStem ∈ own.names)
    (hown : ∀ r ∈ own.rules, r.Closed fun x => x ∈ own.names ∨ x ∈ types.names ∨ missing x)
    (htypes : ∀ r ∈ types.rules, r.Closed fun x => x ∈ types.names ∨ missing x) :
    let joined : RuleSet :=
      { own with start := some topStem
                 rules := own.rules ++ types.rules.filter fun r => !own.has r.name }
    joined.fault? = none ∨ ∃ r x, joined.fault? = some (.danglingReference r x) ∧ missing x := by
  intro joined
  have hleft : ∀ x, x ∈ own.names → x ∈ joined.names := by
    intro x hx
    obtain ⟨r, hr, rfl⟩ := List.mem_map.mp hx
    exact RuleSet.mem_names (List.mem_append_left _ hr)
  have hright : ∀ x, x ∈ types.names → x ∈ joined.names := by
    intro x hx
    by_cases hmem : x ∈ own.names
    · exact hleft x hmem
    · obtain ⟨r, hr, rfl⟩ := List.mem_map.mp hx
      have hhas : own.has r.name = false := by
        rw [Bool.eq_false_iff, Ne, RuleSet.has_iff]
        exact hmem
      exact RuleSet.mem_names (List.mem_append_right _ (List.mem_filter.mpr ⟨hr, by simp [hhas]⟩))
  refine RuleSet.fault_of_closed rfl (hleft _ htop) fun r hr => ?_
  rcases List.mem_append.mp hr with hr | hr
  · refine (hown r hr).mono fun x hx => ?_
    rcases hx with hx | hx | hx
    · exact .inl (hleft x hx)
    · exact .inl (hright x hx)
    · exact .inr hx
  · exact (htypes r (List.mem_filter.mp hr).1).mono fun x hx => hx.imp_left (hright x)

/-- **The rules of the template and of its types go together** exactly if no own rule of
the template has the name of a rule of a type. -/
theorem withTypes_eq_ok_iff {c : Compiler} {known : String → Prop} {es : List Emission}
    {own types : RuleSet} (hown : Grown known es {} own) (htop : topStem ∈ own.names)
    (hnames : types.names.Nodup) (htypes : ∀ x, x ∈ types.names ↔ known x)
    (hclosed : ∀ r ∈ types.rules, r.Closed (· ∈ types.names)) :
    (∃ set, c.withTypes own types = .ok set) ↔ ∀ x, .own x ∈ es → ¬ known x := by
  obtain ⟨new, hnew, hall, hself⟩ := hown.rules
  have hrules : own.rules = new := by simpa using hnew
  have hwell := hown.wellFormed
  have hfind : ∀ {x q}, own.find? x = some q ↔ q ∈ new ∧ q.name = x := by
    intro x q
    rw [hwell.find_eq_some_iff, hrules]
  constructor
  · rintro ⟨set, h⟩ x hx hknown
    unfold withTypes at h
    obtain ⟨set', hadd, _⟩ := Outcome.bind_eq_ok.mp h
    obtain ⟨r, hr, rfl⟩ := List.mem_map.mp ((htypes x).mpr hknown)
    obtain ⟨q, hq, hname, horigin⟩ := hself r.name hx
    exact ((addTypes_eq_ok_iff hnames).mp hadd).1 r hr q (hfind.mpr ⟨hq, hname⟩) horigin
  · intro hfree
    have hnotTemplate : ∀ r ∈ types.rules, ∀ q, own.find? r.name = some q →
        q.origin ≠ .template := by
      intro r hr q hq horigin
      obtain ⟨hq, hname⟩ := hfind.mp hq
      refine hfree r.name (hname ▸ (hall q hq).2 horigin) ((htypes _).mp ?_)
      exact RuleSet.mem_names hr
    have hadd : c.addTypes { own with start := some topStem } types.rules = .ok _ :=
      (addTypes_eq_ok_iff hnames).mpr ⟨hnotTemplate, rfl⟩
    have hcomplete := @fault_joined own types (fun _ => False) htop
      (fun r hr => (hall r (hrules ▸ hr)).1.mono fun x hx =>
        hx.imp_right fun hx => .inl ((htypes x).mpr hx))
      fun r hr => (hclosed r hr).mono fun x hx => .inl hx
    have hcheck := RuleSet.check_eq_ok_iff.mpr (hcomplete.resolve_right fun ⟨_, _, _, h⟩ => h)
    exact ⟨_, Outcome.bind_eq_ok.mpr ⟨_, hadd, Outcome.bind_eq_ok.mpr ⟨(), hcheck, rfl⟩⟩⟩

theorem nodeRules_eq (c : Compiler) (nodes : List Node) (type : SchemaType) (issued : Nat) :
    c.nodeRules nodes type issued =
      match (c.addLevel ⟨type, topStem⟩ (c.membersOf nodes)).exec { issued } with
      | (.ok (), s) => (.ok s.rules, s.issued)
      | (.error f, s) => (.error f, s.issued) := by
  unfold nodeRules
  change (match (c.addLevel ⟨type, topStem⟩ (c.membersOf nodes)).exec { issued } with
    | (o, s) => (o.map fun _ => s.rules, s.issued)) = _
  cases (c.addLevel ⟨type, topStem⟩ (c.membersOf nodes)).exec { issued } with
  | mk o s =>
    cases o <;> rfl

/-- **The rules of the nodes can be made** exactly if no own rule has the name of an
earlier one, and then they are those that are emitted. -/
theorem nodeRules_spec {c : Compiler} (hc : c.catalog.Built) {nodes : List Node}
    {type : SchemaType} (htype : Grounded c.catalog type)
    (hnodes : WellTyped c.catalog type nodes) (issued : Nat) :
    match (c.nodeRules nodes type issued).1 with
    | .ok own =>
      Grown (c.catalog.TypeRule c.settings type.fqn) (c.emissions nodes type) {} own ∧
        topStem ∈ own.names ∧ Fresh (c.emissions nodes type)
    | .error _ => ¬ Fresh (c.emissions nodes type) := by
  have hlevel := emits_level (knows_typeRule hc.sound.types htype c.settings) hnodes
    ⟨htype.found, .refl⟩ topStem { issued } trivial
  have hfresh : (∃ names, absorb [] (c.emissions nodes type) = some names) ↔
      Fresh (c.emissions nodes type) := by
    simp [exists_absorb_iff]
  rw [nodeRules_eq]
  cases hexec : (c.addLevel ⟨type, topStem⟩ (c.membersOf nodes)).exec { issued } with
  | mk o s =>
    rw [hexec] at hlevel
    cases o with
    | error f =>
      intro h
      obtain ⟨names, hnames⟩ := hfresh.mpr h
      cases hnames.symm.trans hlevel
    | ok u => exact ⟨hlevel.1, hlevel.2, hfresh.mp ⟨_, hlevel.1.names⟩⟩

theorem fresh_of_compile {c : Compiler} (hc : c.catalog.Built) {nodes : List Node}
    {type : SchemaType} (htype : Grounded c.catalog type)
    (hnodes : WellTyped c.catalog type nodes) {issued : Nat} {set : RuleSet}
    (h : (c.compile nodes type issued).1 = .ok set) : Fresh (c.emissions nodes type) := by
  have hspec := nodeRules_spec hc htype hnodes issued
  obtain ⟨own, hown, _⟩ := Outcome.bind_eq_ok.mp h
  change (c.nodeRules nodes type issued).1 = .ok own at hown
  rw [hown] at hspec
  exact hspec.2.2

/-- **The rules of a well-typed template can be made** exactly if the default format of
dates can be read, no own rule of the template has the name of an earlier one, and none
has the name of a rule of a type. -/
theorem compile_eq_ok_iff {c : Compiler} (hc : c.catalog.Built) {nodes : List Node}
    {type : SchemaType} (htype : Grounded c.catalog type)
    (hnodes : WellTyped c.catalog type nodes) (issued : Nat) :
    (∃ set, (c.compile nodes type issued).1 = .ok set) ↔
      (∃ r, DateTime.rule c.settings.dateFormat = .ok r) ∧ Fresh (c.emissions nodes type) ∧
        ∀ x, .own x ∈ c.emissions nodes type → ¬ c.catalog.TypeRule c.settings type.fqn x := by
  have hspec := nodeRules_spec hc htype hnodes issued
  have hcompile : (c.compile nodes type issued).1 = (c.nodeRules nodes type issued).1.bind fun own =>
      (c.catalog.rules c.settings type.fqn).bind fun types => c.withTypes own types := rfl
  have hrules : ∀ {r}, DateTime.rule c.settings.dateFormat = .ok r → _ := fun {r} hr =>
    Catalog.rules_spec hc.sound.types hr (Table.mem_names_of_find htype.found) htype.acyclic
      htype.subtypes
  rw [hcompile]
  cases hown : (c.nodeRules nodes type issued).1 with
  | error f =>
    rw [hown] at hspec
    simp [hspec, Except.bind]
  | ok own =>
    rw [hown] at hspec
    obtain ⟨hgrown, htop, hfresh⟩ := hspec
    simp only [Except.bind, hfresh, true_and]
    constructor
    · rintro ⟨set, hset⟩
      obtain ⟨types, htypes, hwith⟩ := Outcome.bind_eq_ok.mp hset
      obtain ⟨r, hr⟩ := rules_of_date htypes
      obtain ⟨types', htypes', hwell, hnames, hclosed⟩ := hrules hr
      cases htypes.symm.trans htypes'
      exact ⟨⟨r, hr⟩,
        (withTypes_eq_ok_iff hgrown htop hwell.names hnames hclosed).mp ⟨set, hwith⟩⟩
    · rintro ⟨⟨r, hr⟩, hfree⟩
      obtain ⟨types, htypes, hwell, hnames, hclosed⟩ := hrules hr
      rw [htypes]
      exact (withTypes_eq_ok_iff hgrown htop hwell.names hnames hclosed).mpr hfree

/-! ### Blocks in lists -/

theorem sublist_levelEmissions {stem : String} {d : SchemaType} {members : List Emitter}
    {m : Emitter} (hm : m ∈ members) (hsilent : m.node.silent = false) :
    (m.emits d).Sublist (levelEmissions stem d members) := by
  obtain ⟨i, hi⟩ := List.mem_iff_getElem?.mp hm
  have hzip : (m, i) ∈ members.zipIdx := List.mk_mem_zipIdx_iff_getElem?.mpr hi
  have hmem : m.emits d ++ [.own (stem ++ toString i)] ∈ members.zipIdx.map fun e =>
      if e.1.node.silent then [] else e.1.emits d ++ [.own (stem ++ toString e.2)] :=
    List.mem_map.mpr ⟨_, hzip, by simp [hsilent]⟩
  rw [levelEmissions, List.flatMap_def]
  exact ((List.sublist_append_left _ _).trans (List.sublist_flatten_of_mem hmem)).trans
    (List.sublist_append_left _ _)

/-- What is not a text stays in a level when a text is put in front of it. -/
theorem mem_ledEmitters {members : List Emitter} {m : Emitter} (hm : m ∈ members)
    (htext : ∀ body last place, m.node ≠ .text body last place)
    (hplace : ∀ m ∈ members, ∃ place, m.node.place? = some place) (start : String) :
    m ∈ ledEmitters start members := by
  unfold ledEmitters leadMembers
  by_cases hstart : start.isEmpty = true
  · simpa only [hstart, if_true] using hm
  · simp only [hstart, Bool.false_eq_true, if_false]
    cases members with
    | nil => cases hm
    | cons first rest =>
      obtain ⟨place, hplace⟩ := hplace first (by simp)
      cases hnode : first.node with
      | text body last place' =>
        rcases List.mem_cons.mp hm with rfl | hm
        · exact absurd hnode (htext body last place')
        · simp only [hnode]
          exact List.mem_cons_of_mem _ hm
      | _ =>
        rw [hnode] at hplace
        simp only [hnode, hplace]
        exact List.mem_cons_of_mem _ hm

theorem own_mem_blockEmissions {c : Compiler} {kind : BlockKind} {field : String}
    {members : List Emitter} {d e : SchemaType} {p : Property} (hp : d.property? field = some p)
    (he : c.catalog.types.find? p.type = some e) :
    .own field ∈ c.blockEmissions kind field members d := by
  rw [blockEmissions_eq hp he]
  cases kind <;> simp [levelEmissions]

/-- The rules of a list are made twice, and so are those of the blocks in it. -/
theorem not_fresh_of_block_in_list {c : Compiler} {d : SchemaType} {style : ListStyle}
    {kind : BlockKind} {field inner : String} {nested parts : List Node}
    {place place' : Text.Position}
    (hfits : Fits c.catalog d (.block (.list style) field nested place))
    (hblock : Node.block kind inner parts place' ∈ nested) :
    ¬ Fresh (c.emissionsOf (.block (.list style) field nested place) d) := by
  cases hfits with
  | @block d e kind' field nested place p hp hprimitive hrelationship he henum habstract harray
      hfilled hnested =>
    have hplace : ∀ m ∈ c.emittersOf nested, ∃ place, m.node.place? = some place := by
      rw [emittersOf_eq_map]
      simpa using fun n hn => place_of_fits (hnested n hn)
    have hmem := mem_emittersOf c hblock
    have hown : .own inner ∈ c.emissionsOf (.block kind inner parts place') e := by
      cases hnested _ hblock with
      | block hp _ _ he => exact own_mem_blockEmissions hp he
    have htwice : ∀ stem start,
        .own inner ∈ levelEmissions stem e (ledEmitters start (c.emittersOf nested)) := by
      intro stem start
      have hled := mem_ledEmitters hmem (fun _ _ _ h => by cases h) hplace start
      exact (sublist_levelEmissions hled rfl).subset hown
    intro hfresh
    rw [emissionsOf, blockEmissions_eq hp he] at hfresh
    exact (List.pairwise_append.mp hfresh).2.2 _ (htwice _ _) _ (htwice _ _) _ rfl rfl

/-- **A list with a block in it** is never made. -/
theorem not_compile_of_block_in_list {c : Compiler} (hc : c.catalog.Built) {nodes : List Node}
    {type : SchemaType} (htype : Grounded c.catalog type)
    (hnodes : WellTyped c.catalog type nodes) {style : ListStyle} {kind : BlockKind}
    {field inner : String} {nested parts : List Node} {place place' : Text.Position}
    (hlist : Node.block (.list style) field nested place ∈ nodes)
    (hblock : Node.block kind inner parts place' ∈ nested) (issued : Nat) :
    ¬ ∃ set, (c.compile nodes type issued).1 = .ok set := by
  rintro ⟨set, hset⟩
  have hmem := mem_emittersOf c hlist
  exact not_fresh_of_block_in_list (hnodes.fits _ hlist) hblock
    ((fresh_of_compile hc htype hnodes hset).sublist (sublist_levelEmissions hmem rfl))

end Compiler

/-! ### Orders -/

namespace Shop

open Covenant.Shop

/-- The rules of templates for the types of orders. -/
def compiler : Compiler where
  catalog := catalog
  identifier := toString

def itemNodes : List Node :=
  [.binding "note" none ⟨1, 3⟩, .text " with " false ⟨1, 9⟩,
    .block .clause "part" [.binding "label" none ⟨1, 36⟩] ⟨1, 25⟩]

/-- A list of items, each laid out as `itemNodes`. -/
def orderNodes : List Node :=
  [.block (.list .bullets) "items" itemNodes ⟨1, 10⟩]

theorem grounded_item : Grounded catalog item := by
  refine ⟨find_types.2.1, fun h => absurd (reached_item h) (by decide), ?_⟩
  intro d hd h habstract
  rw [reached_item h] at hd
  cases find_types.1.symm.trans hd
  cases habstract

theorem grounded_order : Grounded catalog order := by
  refine ⟨find_types.2.2, fun h => ?_, ?_⟩
  · rcases reached_order h with h | h
    · exact absurd h (by decide)
    · exact absurd h (by decide)
  · intro d hd h habstract
    rcases reached_order h with h | h
    · rw [h] at hd
      cases find_types.2.1.symm.trans hd
      cases habstract
    · rw [h] at hd
      cases find_types.1.symm.trans hd
      cases habstract

theorem fits_item : ∀ n ∈ itemNodes, Fits catalog item n := by
  have hpart : ∀ n ∈ [Node.binding "label" none ⟨1, 36⟩], Fits catalog part n := by
    intro n hn
    cases List.mem_singleton.mp hn
    exact .plain rfl
  intro n hn
  simp only [itemNodes, List.mem_cons, List.not_mem_nil, or_false] at hn
  rcases hn with rfl | rfl | rfl
  · exact .plain rfl
  · exact .text
  · exact .block rfl rfl rfl find_types.1 rfl rfl (by simp) ⟨_, List.mem_singleton_self _, rfl⟩ hpart

theorem wellTyped_item : WellTyped catalog item itemNodes :=
  ⟨⟨_, List.mem_cons_self, rfl⟩, fits_item⟩

theorem wellTyped_order : WellTyped catalog order orderNodes := by
  refine ⟨⟨_, List.mem_cons_self, rfl⟩, fun n hn => ?_⟩
  cases List.mem_singleton.mp hn
  exact .block rfl rfl rfl find_types.2.1 rfl rfl (fun _ _ => rfl) ⟨_, List.mem_cons_self, rfl⟩
    fits_item

theorem emissions_item : compiler.emissions itemNodes item =
    [.own "rule0", .own "rule1", .own "part0", .own "part", .own "rule2", .own "rule"] := by
  have hpart : ∀ ms,
      compiler.blockEmissions .clause "part" ms item = levelEmissions "part" part ms :=
    fun ms => Compiler.blockEmissions_eq rfl find_types.1
  simp only [Compiler.emissions, Compiler.emittersOf, Compiler.emissionsOf, itemNodes,
    levelEmissions, List.zipIdx_cons, List.zipIdx_nil, List.flatMap_cons, List.flatMap_nil, hpart]
  decide

theorem typeRule_item {x : String}
    (h : catalog.TypeRule compiler.settings item.fqn x) :
    x ∈ primitiveRuleNames compiler.settings ∨ x = part.fqn := by
  rcases h with h | ⟨d, hd, hreach, hne, hx⟩
  · exact .inl h
  · rcases Relation.reflTransGen_iff_eq_or_transGen.mp hreach with heq | hreach
    · exact absurd heq hne
    · rw [reached_item hreach] at hd
      cases find_types.1.symm.trans hd
      exact .inr (List.mem_singleton.mp hx)

/-- The rules of an item can be made. -/
theorem compile_item : ∃ set, (compiler.compile itemNodes item 0).1 = .ok set := by
  refine (Compiler.compile_eq_ok_iff built grounded_item wellTyped_item 0).mpr ⟨?_, ?_, ?_⟩
  · exact ⟨_, rfl⟩
  · rw [emissions_item]
    decide
  · intro x hx htype
    rw [emissions_item] at hx
    have hx' : x ∈ ["rule0", "rule1", "part0", "part", "rule2", "rule"] := by simpa using hx
    rcases typeRule_item htype with h | rfl
    · have hplain : '_' ∉ x.toList := by
        simp only [List.mem_cons, List.not_mem_nil, or_false] at hx'
        rcases hx' with rfl | rfl | rfl | rfl | rfl | rfl <;> decide
      have hformat : x ≠ formatRuleName "DateTime" compiler.settings.dateFormat := by
        rintro rfl
        exact hplain (mem_formatRuleName _ _)
      simp only [primitiveRuleNames, List.mem_cons, List.not_mem_nil, or_false, hformat, false_or] at h
      rcases h with rfl | rfl | rfl | rfl | rfl | rfl | rfl <;> exact absurd hx' (by decide)
    · exact absurd hx' (by decide)

/-- The rules of a block in a list are made twice under the same names. -/
theorem not_compile_order :
    Catalog.Built compiler.catalog ∧ Grounded compiler.catalog order ∧
      WellTyped compiler.catalog order orderNodes ∧
      ¬ ∃ set, (compiler.compile orderNodes order 0).1 = .ok set := by
  exact ⟨built, grounded_order, wellTyped_order, Compiler.not_compile_of_block_in_list built
    grounded_order wellTyped_order List.mem_cons_self
    (List.mem_cons_of_mem _ (List.mem_cons_of_mem _ List.mem_cons_self)) 0⟩

end Shop

end Covenant.Markup
