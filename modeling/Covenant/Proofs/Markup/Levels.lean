import Covenant.Proofs.Markup.Steps

/-!
What the levels of a template add.

* `emits_addLevel`: a level adds the rules of its members and one of its stem's name.
* `emits_listRule`: a list adds its level twice, with different stems.
* `emits_ruleOf`: a fitting node adds its emissions, or fails since a name is taken.
-/

namespace Covenant.Markup.Compiler

variable {c : Compiler} {d : SchemaType} {stem : String} {known : String → Prop}
  {pre : List String → Prop}

/-! ### Bindings and expressions -/

theorem emits_bindingRule {n : Node} {field : String} {format : Option String} {p : Property}
    (hp : d.property? field = some p)
    (hformat : ∀ f, format = some f → Formats p f) (hknown : known p.ruleName) (name : String) :
    Emits known pre (c.bindingRule n field format ⟨d, stem⟩ name) (formatEmissions d field format)
      (RuleFor known name) := by
  rw [bindingRule, property_eq hp, pure_bind]
  cases format with
  | none =>
    simp only [pure_bind]
    exact emits_pure fun ns _ => ⟨rfl, rfl, closed_of_reference rfl rfl (.inr hknown)⟩
  | some f =>
    obtain ⟨hrelationship, k, hk, r, hr⟩ := hformat f rfl
    have hemissions : formatEmissions d field (some f) = [.shared (k.ruleName f)] := by
      simp [formatEmissions, hp, hk]
    rw [hemissions]
    refine (emits_formatTarget hrelationship hk hr).map fun ns x hx => ?_
    exact ⟨rfl, rfl, closed_of_reference rfl rfl (.inl hx)⟩

theorem emits_expressionRule (hknown : known anyRule) (body name : String) :
    Emits known pre (expressionRule body name) [] (RuleFor known name) := by
  intro s _
  exact ⟨⟨rfl, [], by simp, by simp⟩,
    rfl, rfl, closed_of_reference rfl rfl (.inr hknown)⟩

/-! ### Levels -/

/-- A member of a level for values of type `d`, and an emitter for the same node that
tells what the member adds before its own rule. -/
structure Agrees (known : String → Prop) (d : SchemaType) (m : Member) (e : Emitter) : Prop where
  node : m.node = e.node
  rule : ∀ stem name, Emits known (fun _ => True) (m.rule ⟨d, stem⟩ name) (e.emits d)
    (RuleFor known name)

/-- What a member of a level adds, its own rule included. -/
def memberEmissions (stem : String) (d : SchemaType) (e : Emitter) (i : Nat) : List Emission :=
  if e.node.silent then [] else e.emits d ++ [.own (stem ++ toString i)]

theorem silent_iff {n : Node} :
    n.silent = true ↔ ∃ last place, n = .text "" last place := by
  cases n <;> simp [Node.silent, String.isEmpty_iff]

/-- **A member adds its own rule** unless it is silent. -/
theorem emits_addMember {m : Member} {e : Emitter}
    (h : Agrees known d m e) (stem : String) (i : Nat) :
    Emits known (fun _ => True) (c.addMember ⟨d, stem⟩ m i) (memberEmissions stem d e i)
      fun ns part => part.isSome = !m.node.silent ∧ ∀ x ∈ part, x.1 ∈ ns := by
  unfold addMember memberEmissions
  rw [← h.node]
  split
  · rename_i last place hnode
    rw [hnode, if_pos (by simp [Node.silent])]
    exact emits_pure fun ns _ => by simp [Node.silent]
  · rename_i hnode
    have hsilent : m.node.silent = false := by
      rw [Bool.eq_false_iff, Ne, silent_iff]
      exact fun ⟨last, place, h⟩ => hnode last place h
    rw [hsilent, if_neg Bool.false_ne_true]
    refine (h.rule stem (stem ++ toString i)).bind fun r => ?_
    refine Emits.assume (fun ns hr => And.intro hr.name hr.origin) fun ⟨hname, horigin⟩ => ?_
    have hadd : Emits known (fun ns => r.Closed fun x => x ∈ ns ∨ known x)
        (c.addRule (some m.node) r) [.own (stem ++ toString i)]
        fun ns _ => stem ++ toString i ∈ ns := by
      rw [← hname]
      exact emits_addRule c (some m.node) horigin
    refine Emits.weaken (hadd.map fun ns _ hns => ?_) (fun ns hr => hr.closed) fun _ _ h => h
    exact ⟨rfl, fun x hx => by cases hx; exact hns⟩

/-- Adding the members of a level one by one. -/
theorem emits_addMembers (stem : String)
    {ms : List Member} {es : List Emitter} (h : List.Forall₂ (Agrees known d) ms es) (start : Nat) :
    Emits known (fun _ => True)
      ((ms.zipIdx start).filterMapM fun (m, i) => c.addMember ⟨d, stem⟩ m i)
      ((es.zipIdx start).flatMap fun (e, i) => memberEmissions stem d e i)
      fun ns parts => ((∃ m ∈ ms, m.node.silent = false) → parts ≠ []) ∧
        ∀ x ∈ parts, x.1 ∈ ns := by
  induction h generalizing start with
  | nil => exact emits_pure fun ns _ => by simp
  | @cons m e ms es hm _ ih =>
    rw [List.zipIdx_cons, List.zipIdx_cons, List.filterMapM_cons, List.flatMap_cons]
    refine (emits_addMember hm stem start).bind fun part => ?_
    cases part with
    | none =>
      refine ((ih (start + 1)).frame (fun _ => m.node.silent = true) ?_).weaken ?_ ?_
      · exact fun _ _ _ h => h
      · rintro ns ⟨hsilent, _⟩
        simpa using hsilent
      · rintro ns parts ⟨⟨hfilled, hparts⟩, hsilent⟩
        refine ⟨?_, hparts⟩
        rintro ⟨q, hq, hnot⟩
        rcases List.mem_cons.mp hq with rfl | hq
        · rw [hsilent] at hnot
          cases hnot
        · exact hfilled ⟨q, hq, hnot⟩
    | some x =>
      have hrest := (ih (start + 1)).frame (fun ns => x.1 ∈ ns) fun _ _ hsub hx => hsub hx
      refine Emits.weaken (hrest.map ?_) (fun ns hns => ⟨trivial, hns.2 x rfl⟩) fun _ _ h => h
      rintro ns parts ⟨⟨_, hparts⟩, hx⟩
      exact ⟨fun _ => by simp, by simpa [hx] using hparts⟩

theorem emits_issue (c : Compiler) : Emits known pre c.issue [] fun ns _ => pre ns :=
  fun s hs => ⟨Grown.refl known s.rules, hs⟩

/-- The parameters of a level's rule are constants or refer to its members. -/
theorem emits_levelParams (c : Compiler) (type : SchemaType) (bound : List (String × String)) :
    Emits known pre (c.levelParams type bound) [] fun ns params =>
      pre ns ∧ ∀ p ∈ params, (∃ t, p.source = .const t) ∨ ∃ e ∈ bound, p.source = .ref e.2 := by
  have hbound : ∀ p ∈ type.properties.filterMap (fun p =>
      if type.identifier? = some p.name then none
      else (bound.lookup p.name).map fun name => (⟨p.name, .ref name⟩ : ActionParam)),
      ∃ e ∈ bound, p.source = .ref e.2 := by
    intro p hp
    obtain ⟨q, _, hq⟩ := List.mem_filterMap.mp hp
    split at hq
    · cases hq
    · obtain ⟨name, hname, rfl⟩ := Option.map_eq_some_iff.mp hq
      obtain ⟨_, _, rfl, _⟩ := List.lookup_eq_some_iff.mp hname
      exact ⟨(q.name, name), by simp, rfl⟩
  have hparams : ∀ identifier : List ActionParam, (∀ p ∈ identifier, ∃ t, p.source = .const t) →
      ∀ p ∈ ⟨classKey, .const type.fqn⟩ :: identifier ++ type.properties.filterMap (fun p =>
        if type.identifier? = some p.name then none
        else (bound.lookup p.name).map fun name => (⟨p.name, .ref name⟩ : ActionParam)),
      (∃ t, p.source = .const t) ∨ ∃ e ∈ bound, p.source = .ref e.2 := by
    intro identifier hidentifier p hp
    rcases List.mem_append.mp hp with hp | hp
    · rcases List.mem_cons.mp hp with rfl | hp
      · exact .inl ⟨_, rfl⟩
      · exact .inl (hidentifier p hp)
    · exact .inr (hbound p hp)
  unfold levelParams
  dsimp only
  split
  · simp only [pure_bind]
    exact (emits_issue c).map fun ns id hns => ⟨hns, hparams _ (by simp)⟩
  · rw [pure_bind]
    exact emits_pure fun ns hns => ⟨hns, hparams _ (by simp)⟩

/-- **A level adds** the rules of its members, and one that reads them one after the
other. -/
theorem emits_addLevel {ms : List Member}
    {es : List Emitter} (h : List.Forall₂ (Agrees known d) ms es)
    (hfilled : ∃ m ∈ ms, m.node.silent = false) :
    Emits known (fun _ => True) (c.addLevel ⟨d, stem⟩ ms) (levelEmissions stem d es)
      fun ns _ => stem ∈ ns := by
  unfold addLevel
  refine (emits_addMembers stem h 0).bind fun parts => ?_
  refine Emits.assume (fun ns hns => hns.1 hfilled) fun hparts => ?_
  rw [if_neg (by simpa using hparts)]
  change Emits known _ _ ([] ++ [.own stem]) _
  refine (emits_levelParams c d _).bind fun params => ?_
  refine (emits_addRule c none rfl).weaken ?_ fun _ _ h => h
  rintro ns ⟨⟨_, hnames⟩, hparams⟩
  refine ⟨⟨by simp, by simpa using hparts⟩, ?_, ?_⟩
  · intro x hx
    obtain ⟨a, ha, s, hs, _, rfl⟩ := Rule.mem_references.mp hx
    rw [List.mem_singleton.mp ha] at hs
    obtain ⟨part, hpart, rfl⟩ := List.mem_map.mp hs
    exact .inl (hnames part hpart)
  · intro a ha p hp
    cases ha
    rcases hparams p hp with ⟨t, ht⟩ | ⟨e, he, hsource⟩
    · rw [ht]
      rfl
    · obtain ⟨part, hpart, hfield⟩ := List.mem_filterMap.mp he
      obtain ⟨field, _, rfl⟩ := Option.map_eq_some_iff.mp hfield
      rw [hsource]
      simp only [RuleSet.sourceFault?, List.all_cons, List.all_nil, Bool.and_true]
      rw [if_pos]
      refine List.any_eq_true.mpr ⟨.rule part.1, List.mem_map.mpr ⟨part, hpart, rfl⟩, ?_⟩
      simp [Symbol.refersTo, Symbol.rule]

/-! ### Blocks -/

/-- What stands in front of the later items of a list is there if something stands in front
of the first one. -/
theorem leads_ne {s : Settings} {style : ListStyle} (h : (style.leads s).1 ≠ "") :
    (style.leads s).2 ≠ "" := by
  cases style with
  | bullets => simp [ListStyle.leads]
  | numbers => simp [ListStyle.leads]
  | joined separator => exact absurd rfl h

theorem agrees_text (d : SchemaType) (body : String) (last : Bool) (place : Text.Position) :
    Agrees known d (textMember (.text body last place)) (textEmitter (.text body last place)) :=
  ⟨rfl, fun _ name => emits_textRule body name⟩

/-- A text in front of a level keeps members and emitters in step, and leaves the level
with something to say. -/
theorem agrees_lead {ms : List Member} {es : List Emitter}
    (h : List.Forall₂ (Agrees known d) ms es) {start : String}
    (hfilled : start = "" → ∃ m ∈ ms, m.node.silent = false)
    (hplace : ∀ m ∈ ms, ∃ place, m.node.place? = some place) :
    ∃ led, leadMembers Member.node textMember start ms = .ok led ∧
      List.Forall₂ (Agrees known d) led (ledEmitters start es) ∧
      ∃ m ∈ led, m.node.silent = false := by
  unfold ledEmitters leadMembers
  by_cases hstart : start.isEmpty = true
  · simp only [hstart, if_true]
    exact ⟨ms, rfl, h, hfilled (String.isEmpty_iff.mp hstart)⟩
  · have hloud : ∀ body last place, Node.silent (.text (start ++ body) last place) = false := by
      intro body last place
      rw [Node.silent, Bool.eq_false_iff, Ne, String.isEmpty_iff]
      rw [String.isEmpty_iff] at hstart
      intro hnil
      exact hstart (String.append_eq_empty_iff.mp hnil).1
    simp only [hstart, Bool.false_eq_true, if_false]
    cases h with
    | nil =>
      exact ⟨_, rfl, .cons (agrees_text d start false _) .nil, _, List.mem_cons_self,
        (Bool.not_eq_true _).mp hstart⟩
    | @cons m e ms es hm hrest =>
      obtain ⟨place, hplace⟩ := hplace m (by simp)
      simp only [← hm.node]
      cases hnode : m.node with
      | text body last place =>
        exact ⟨_, rfl, .cons (agrees_text d _ last place) hrest, _, List.mem_cons_self,
          hloud body last place⟩
      | _ =>
        rw [hnode] at hplace
        simp only [hplace]
        exact ⟨_, rfl, .cons (agrees_text d _ false place) (.cons hm hrest), _,
          List.mem_cons_self, (Bool.not_eq_true _).mp hstart⟩

theorem blockType_eq {n : Node} {kind : BlockKind} {p : Property} {e : SchemaType}
    (hprimitive : p.isPrimitive = false) (hrelationship : p.relationship = false)
    (he : c.catalog.types.find? p.type = some e) (henum : e.isEnum = false)
    (habstract : e.abstract = false) : c.blockType n kind p = pure e := by
  unfold blockType
  simp [hprimitive, hrelationship, henum, habstract, Catalog.get, he, ofOutcome]

section Block

variable {n : Node} {field : String} {p : Property} {e : SchemaType}
  {ms : List Member} {es : List Emitter}

/-- The rule of a clause or a value comes after the rules of its level. -/
theorem emits_nestedRule (hp : d.property? field = some p) {kind : BlockKind}
    (htype : c.blockType n kind p = pure e) (h : List.Forall₂ (Agrees known e) ms es)
    (hfilled : ∃ m ∈ ms, m.node.silent = false) (name : String) :
    Emits known (fun _ => True) (c.nestedRule n kind field ms ⟨d, stem⟩ name)
      (levelEmissions field e es) (RuleFor known name) := by
  rw [nestedRule, property_eq hp, pure_bind, htype, pure_bind]
  refine (emits_addLevel h hfilled).map fun ns _ hns => ?_
  exact ⟨rfl, rfl, closed_of_reference rfl rfl (.inl hns)⟩

/-- The rule of a list comes after the rules of its level, which are added once for the
first item and once for the others. -/
theorem emits_listRule (hp : d.property? field = some p) (harray : p.array = true)
    {style : ListStyle} (htype : c.blockType n (.list style) p = pure e)
    (h : List.Forall₂ (Agrees known e) ms es)
    (hfilled : (style.leads c.settings).1 = "" → ∃ m ∈ ms, m.node.silent = false)
    (hplace : ∀ m ∈ ms, ∃ place, m.node.place? = some place) (name : String) :
    Emits known (fun _ => True) (c.listRule n style field ms ⟨d, stem⟩ name)
      (levelEmissions (field ++ "First") e (ledEmitters (style.leads c.settings).1 es)
        ++ levelEmissions field e (ledEmitters (style.leads c.settings).2 es))
      (RuleFor known name) := by
  obtain ⟨first, hfirst, hfirsts, hfirstFilled⟩ := agrees_lead h hfilled hplace
  have hlead : (style.leads c.settings).2 = "" → (style.leads c.settings).1 = "" := fun hlater =>
    Classical.byContradiction fun hfirst => leads_ne hfirst hlater
  obtain ⟨later, hlater, hlaters, hlaterFilled⟩ :=
    agrees_lead h (fun hlater => hfilled (hlead hlater)) hplace
  rw [listRule, property_eq hp, pure_bind, harray]
  simp only [htype, pure_bind, addLedLevel, hfirst, hlater, ofOutcome]
  rw [if_pos trivial]
  refine (emits_addLevel hfirsts hfirstFilled).bind fun _ => ?_
  have hstems : Emits known _ (c.addLevel ⟨e, field⟩ later) _ _ :=
    (emits_addLevel hlaters hlaterFilled).frame (fun ns => field ++ "First" ∈ ns)
      fun _ _ hsub hmem => hsub hmem
  refine (hstems.map fun ns _ ⟨hstem, hfirstStem⟩ => ?_).weaken (fun ns hns => ⟨trivial, hns⟩)
    fun _ _ h => h
  refine ⟨rfl, rfl, ⟨by simp, by simp⟩, ?_, ?_⟩
  · intro x hx
    obtain ⟨a, ha, s, hs, _, rfl⟩ := Rule.mem_references.mp hx
    rw [List.mem_singleton.mp ha] at hs
    rcases List.mem_pair.mp hs with rfl | rfl
    · exact .inl hfirstStem
    · exact .inl hstem
  · intro a ha q hq
    cases ha
    rcases List.mem_pair.mp hq with rfl | rfl <;>
      simp [RuleSet.sourceFault?, Symbol.refersTo, Symbol.rule]

end Block

/-! ### Fitting nodes -/

/-- What rules of a template may refer to before the rules of the types are added: the
rule of any text, and those of the properties of the types that `covers` holds of, which
are closed under the blocks of fitting nodes. -/
structure Knows (c : Catalog) (covers : SchemaType → Prop) (known : String → Prop) : Prop where
  any : known anyRule
  property : ∀ {d}, covers d → ∀ p ∈ d.properties, known p.ruleName
  block : ∀ {d e p}, covers d → p ∈ d.properties → p.isPrimitive = false →
    p.relationship = false → c.types.find? p.type = some e → covers e

theorem place_of_fits {c : Catalog} {d : SchemaType} {n : Node} (h : Fits c d n) :
    ∃ place, n.place? = some place := by
  cases h <;> exact ⟨_, rfl⟩

theorem membersOf_eq_map (c : Compiler) (ns : List Node) :
    c.membersOf ns = ns.map fun n => ⟨n, c.ruleOf n⟩ := by
  induction ns with
  | nil => rfl
  | cons n ns ih => rw [membersOf, ih, List.map_cons]

theorem agrees_members {ns : List Node}
    (h : ∀ n ∈ ns, ∀ stem name, Emits known (fun _ => True) (c.ruleOf n ⟨d, stem⟩ name)
      (c.emissionsOf n d) (RuleFor known name)) :
    List.Forall₂ (Agrees known d) (c.membersOf ns) (c.emittersOf ns) := by
  rw [membersOf_eq_map, emittersOf_eq_map, List.forall₂_map_left_iff, List.forall₂_map_right_iff]
  exact List.forall₂_same.mpr fun n hn => ⟨rfl, h n hn⟩

theorem mem_membersOf {ns : List Node} {n : Node} :
    (∃ m ∈ c.membersOf ns, m.node = n) ↔ n ∈ ns := by
  rw [membersOf_eq_map]
  simp

theorem mem_of_property {d : SchemaType} {field : String} {p : Property}
    (h : d.property? field = some p) : p ∈ d.properties :=
  List.mem_of_find?_eq_some h

/-- **A block adds the rules of its levels** if the nodes in it add theirs. Only a list with a
text in front of every item may have nothing to say of its own. -/
theorem emits_block {kind : BlockKind} {field : String} {nested : List Node}
    {place : Text.Position} {p : Property} {e : SchemaType} (hp : d.property? field = some p)
    (hprimitive : p.isPrimitive = false) (hrelationship : p.relationship = false)
    (he : c.catalog.types.find? p.type = some e) (henum : e.isEnum = false)
    (habstract : e.abstract = false) (harray : ∀ style, kind = .list style → p.array = true)
    (hfilled : (∀ style, kind = .list style → (style.leads c.settings).1 = "") →
      ∃ n ∈ nested, n.silent = false)
    (hplace : ∀ n ∈ nested, ∃ place, n.place? = some place)
    (hnested : ∀ n ∈ nested, ∀ stem name, Emits known (fun _ => True) (c.ruleOf n ⟨e, stem⟩ name)
      (c.emissionsOf n e) (RuleFor known name)) (stem name : String) :
    Emits known (fun _ => True) (c.ruleOf (.block kind field nested place) ⟨d, stem⟩ name)
      (c.emissionsOf (.block kind field nested place) d) (RuleFor known name) := by
  have hmembers := agrees_members hnested
  have hloud : (∀ style, kind = .list style → (style.leads c.settings).1 = "") →
      ∃ m ∈ c.membersOf nested, m.node.silent = false := by
    intro hleads
    obtain ⟨q, hq, hsilent⟩ := hfilled hleads
    obtain ⟨m, hm, rfl⟩ := mem_membersOf.mpr hq
    exact ⟨m, hm, hsilent⟩
  have hplaces : ∀ m ∈ c.membersOf nested, ∃ place, m.node.place? = some place := fun m hm =>
    hplace _ (mem_membersOf.mp ⟨m, hm, rfl⟩)
  have htype : ∀ {n kind}, c.blockType n kind p = pure e :=
    blockType_eq hprimitive hrelationship he henum habstract
  rw [emissionsOf, blockEmissions_eq hp he]
  cases kind with
  | clause => exact emits_nestedRule hp htype hmembers (hloud fun _ h => nomatch h) name
  | within => exact emits_nestedRule hp htype hmembers (hloud fun _ h => nomatch h) name
  | list style =>
    refine emits_listRule hp (harray style rfl) htype hmembers (fun hlead => hloud ?_) hplaces name
    rintro _ ⟨rfl⟩
    exact hlead

/-- **A fitting node adds its emissions** and then has a rule, or fails since one of its
own names is taken. -/
theorem emits_ruleOf {covers : SchemaType → Prop}
    (hknown : Knows c.catalog covers known) {n : Node} (h : Fits c.catalog d n)
    (hd : covers d) (stem name : String) :
    Emits known (fun _ => True) (c.ruleOf n ⟨d, stem⟩ name) (c.emissionsOf n d)
      (RuleFor known name) := by
  induction h generalizing stem name with
  | text => exact emits_textRule _ name
  | expression => exact emits_expressionRule hknown.any _ name
  | plain hp =>
    rw [ruleOf, emissionsOf]
    refine emits_bindingRule hp ?_ (hknown.property hd _ (mem_of_property hp)) name
    intro format h
    cases h
  | binding hp hformat =>
    rw [ruleOf, emissionsOf]
    exact emits_bindingRule hp (fun _ h => Option.some.inj h ▸ hformat)
      (hknown.property hd _ (mem_of_property hp)) name
  | formatted hp hformat =>
    rw [ruleOf, emissionsOf]
    exact emits_bindingRule hp (fun _ h => Option.some.inj h ▸ hformat)
      (hknown.property hd _ (mem_of_property hp)) name
  | shown hp hboolean harray htext => exact emits_shownRule hp hboolean harray htext name
  | choice hp hboolean harray htexts => exact emits_choiceRule hp hboolean harray htexts name
  | @block d e kind field nested place p hp hprimitive hrelationship he henum habstract harray
      hfilled hnested ih =>
    exact emits_block hp hprimitive hrelationship he henum habstract harray (fun _ => hfilled)
      (fun q hq => place_of_fits (hnested q hq)) (fun q hq => ih q hq
        (hknown.block hd (mem_of_property hp) hprimitive hrelationship he)) stem name

/-- **The level of a well-typed template** adds its emissions, or fails since one of its
own names is taken. -/
theorem emits_level {covers : SchemaType → Prop}
    (hknown : Knows c.catalog covers known) {nodes : List Node}
    (h : WellTyped c.catalog d nodes) (hd : covers d) (stem : String) :
    Emits known (fun _ => True) (c.addLevel ⟨d, stem⟩ (c.membersOf nodes))
      (levelEmissions stem d (c.emittersOf nodes)) fun ns _ => stem ∈ ns := by
  refine emits_addLevel (agrees_members fun n hn => emits_ruleOf hknown (h.fits n hn) hd) ?_
  obtain ⟨n, hn, hsilent⟩ := h.filled
  obtain ⟨m, hm, rfl⟩ := mem_membersOf.mpr hn
  exact ⟨m, hm, hsilent⟩

/-! ### Whole templates -/

/-- **What holds of a rule set**, and goes on to hold when a rule of a type is added that has a
name of its own, holds when all are added. -/
theorem addTypes_induction {P : RuleSet → Prop} {set set' : RuleSet} {rs : List Rule}
    (hadd : ∀ s r, r ∈ rs → s.find? r.name = none → P s → P { s with rules := s.rules ++ [r] })
    (hset : P set) (h : c.addTypes set rs = .ok set') : P set' := by
  induction rs generalizing set with
  | nil =>
    cases h
    exact hset
  | cons r rs ih =>
    have hrest : ∀ s q, q ∈ rs → s.find? q.name = none → P s →
        P { s with rules := s.rules ++ [q] } := fun s q hq => hadd s q (List.mem_cons_of_mem r hq)
    unfold addTypes at h
    split at h
    · rename_i hfind
      exact ih hrest (hadd set r List.mem_cons_self hfind hset) h
    · split at h
      · cases h
      · exact ih hrest hset h

/-- **The rules of a template** are those of its nodes and those of the types, and complete. -/
theorem exists_of_compile {nodes : List Node} {issued : Nat} {set : RuleSet}
    (h : (c.compile nodes d issued).1 = .ok set) :
    ∃ own types, (c.nodeRules nodes d issued).1 = .ok own ∧
      c.catalog.rules c.settings d.fqn = .ok types ∧
      c.addTypes { own with start := some topStem } types.rules = .ok set ∧ set.check = .ok () := by
  obtain ⟨own, hown, h⟩ :
      ∃ own, (c.nodeRules nodes d issued).1 = .ok own ∧ _ := Outcome.bind_eq_ok.mp h
  obtain ⟨types, htypes, h⟩ := Outcome.bind_eq_ok.mp h
  obtain ⟨joined, hjoined, h⟩ := Outcome.bind_eq_ok.mp h
  obtain ⟨_, hcheck, h⟩ := Outcome.bind_eq_ok.mp h
  cases h
  exact ⟨own, types, hown, htypes, hjoined, hcheck⟩

end Covenant.Markup.Compiler
