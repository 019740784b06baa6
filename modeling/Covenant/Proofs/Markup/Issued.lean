import Covenant.Proofs.Markup.Answers

/-!
The identifiers that are drawn while the rules of a template are made.

* `Compiler.sites`: the levels whose values have an identifier, in the order in which the rules
  of the levels are made.
* `Compiler.Draws`: a step draws an identifier for each of some sites, one after the other, and
  leaves behind the rule of each.
* `Compiler.draws_ruleOf`: the steps of a node draw the identifiers of the sites in it, one case
  for each kind of node.
* `Compiler.drawn_of_compile`: so every site of a template has an identifier of its own, and no
  two sites are under one name.
-/

namespace Covenant

/-- The constant that the action of a rule has for its second parameter, which is the identifier
where the rule builds values that have one. -/
def Rule.token? (r : Rule) : Option String :=
  match r.action with
  | some ⟨_, _ :: ⟨_, .const token⟩ :: _⟩ => some token
  | _ => none

namespace Markup

/-! ### Sites -/

/-- A level, by the type of its values and the names of the levels that it stands in, its own
first and that of the template last. -/
structure Site where
  type : SchemaType
  way : List String
deriving DecidableEq

namespace Site

def stem (s : Site) : String :=
  s.way.headD topStem

/-- A level alone, if its values have an identifier. -/
def identified (s : Site) : List Site :=
  if s.type.identifier?.isSome then [s] else []

theorem mem_identified {s : Site} {key : String} (h : s.type.identifier? = some key) :
    s ∈ s.identified := by
  rw [identified, h]
  exact List.mem_singleton_self s

end Site

namespace Compiler

/-- The sites of a level: those in its nodes, and the level itself. -/
def levelSites (below : SchemaType → List String → List Site) (d : SchemaType)
    (way : List String) : List Site :=
  below d way ++ Site.identified ⟨d, way⟩

/-- The sites of a block: those of one level, or of two for a list. -/
def blockSites (c : Compiler) (kind : BlockKind) (field : String)
    (below : SchemaType → List String → List Site) (d : SchemaType) (way : List String) :
    List Site :=
  match (d.property? field).bind fun p => c.catalog.types.find? p.type with
  | none => []
  | some e =>
    match kind with
    | .list _ => levelSites below e ((field ++ "First") :: way) ++ levelSites below e (field :: way)
    | _ => levelSites below e (field :: way)

mutual

def sitesOf (c : Compiler) : Node → SchemaType → List String → List Site
  | .block kind field nested _ => c.blockSites kind field (c.sitesIn nested)
  | _ => fun _ _ => []

def sitesIn (c : Compiler) : List Node → SchemaType → List String → List Site
  | [] => fun _ _ => []
  | n :: ns => fun d way => c.sitesOf n d way ++ c.sitesIn ns d way

end

/-- **The sites of a template**: its levels whose values have an identifier, in the order in which
their rules are made. -/
def sites (c : Compiler) (nodes : List Node) (d : SchemaType) : List Site :=
  levelSites (c.sitesIn nodes) d [topStem]

theorem sitesOf_subset {c : Compiler} {n : Node} {nodes : List Node} (hn : n ∈ nodes)
    (d : SchemaType) (way : List String) : c.sitesOf n d way ⊆ c.sitesIn nodes d way := by
  induction nodes with
  | nil => cases hn
  | cons m ms ih =>
    rw [sitesIn]
    rcases List.mem_cons.mp hn with rfl | hn
    · exact List.subset_append_left _ _
    · exact List.subset_append_of_subset_right _ (ih hn)

section Block

variable {c : Compiler} {d e : SchemaType} {field : String} {nested : List Node}
  {place : Text.Position} {p : Property}

/-- A block issues for the one level it encloses. -/
theorem sitesOf_nested {kind : BlockKind} (hkind : ∀ style, kind ≠ .list style)
    (hp : d.property? field = some p) (he : c.catalog.types.find? p.type = some e)
    (way : List String) : c.sitesOf (.block kind field nested place) d way =
      levelSites (c.sitesIn nested) e (field :: way) := by
  rw [sitesOf, blockSites, hp, Option.bind_some, he]
  cases kind with
  | list style => exact absurd rfl (hkind style)
  | _ => rfl

/-- A list issues for its items' level twice: for the first item and for the rest. -/
theorem sitesOf_list (style : ListStyle) (hp : d.property? field = some p)
    (he : c.catalog.types.find? p.type = some e) (way : List String) :
    c.sitesOf (.block (.list style) field nested place) d way =
      levelSites (c.sitesIn nested) e ((field ++ "First") :: way) ++
        levelSites (c.sitesIn nested) e (field :: way) := by
  rw [sitesOf, blockSites, hp, Option.bind_some, he]

/-- A text in front of a level has no sites. -/
theorem sitesIn_lead {start : String} {nodes led : List Node} (h : lead start nodes = .ok led) :
    c.sitesIn led = c.sitesIn nodes := by
  rcases lead_cases h with ⟨_, rfl⟩ | ⟨body, last, place, rest, rfl, rfl⟩ | ⟨place, rfl⟩ <;> rfl

end Block

/-! ### Drawing identifiers -/

/-- **Identifiers have been drawn for sites**: one for each, in order, and the rules that are
there have it for the values of the site. -/
structure Drawn (c : Compiler) (sites : List Site) (s s' : Progress) : Prop where
  kept : s'.rules.Extends s.rules
  issued : s'.issued = s.issued + sites.length
  rules : ∀ i site, sites[i]? = some site → ∃ r, s'.rules.Holds r ∧ r.name = site.stem ∧
    r.token? = some (c.identifier (s.issued + i))

/-- A step that draws identifiers for sites, if it succeeds. -/
def Draws {α : Type} (c : Compiler) (x : Compile α) (sites : List Site) : Prop :=
  ∀ s s' a, x.exec s = (.ok a, s') → c.Drawn sites s s'

variable {α β : Type} {c : Compiler} {ss ss' : List Site}

/-- No site issues no identifier. -/
theorem Drawn.nil {s s' : Progress} (hrules : s'.rules.Extends s.rules)
    (hissued : s'.issued = s.issued) : c.Drawn [] s s' :=
  ⟨hrules, hissued, by simp⟩

/-- The identifiers of two runs, one after the other. -/
theorem Drawn.trans {s t u : Progress} (h : c.Drawn ss s t) (h' : c.Drawn ss' t u) :
    c.Drawn (ss ++ ss') s u := by
  refine ⟨h'.kept.trans h.kept, ?_, fun i site hi => ?_⟩
  · rw [h'.issued, h.issued, List.length_append, Nat.add_assoc]
  · by_cases hlt : i < ss.length
    · rw [List.getElem?_append_left hlt] at hi
      obtain ⟨r, hr, hname, htoken⟩ := h.rules i site hi
      exact ⟨r, h'.kept r hr, hname, htoken⟩
    · rw [List.getElem?_append_right (by omega)] at hi
      obtain ⟨r, hr, hname, htoken⟩ := h'.rules _ site hi
      have hindex : s.issued + ss.length + (i - ss.length) = s.issued + i := by omega
      rw [h.issued, hindex] at htoken
      exact ⟨r, hr, hname, htoken⟩

theorem draws_pure (a : α) : c.Draws (pure a) [] := by
  intro s s' b hexec
  cases hexec
  exact .nil (.refl _) rfl

theorem draws_throw (f : Fault) (ss : List Site) : c.Draws (throw f : Compile α) ss := by
  intro s s' a hexec
  cases hexec

/-- A refusal promises whatever is asked of its sites. -/
theorem draws_refuse (n : Node) (cause : Fault.Cause) (ss : List Site) :
    c.Draws (c.refuse n cause : Compile α) ss := by
  intro s s' a hexec
  obtain ⟨f, hf⟩ := c.exec_refuse (α := α) n cause s
  rw [hf] at hexec
  cases hexec

/-- An outcome lifted into the compiler issues nothing. -/
theorem draws_ofOutcome (o : Outcome α) : c.Draws (ofOutcome o) [] := by
  cases o with
  | error f => exact draws_throw f []
  | ok a => exact draws_pure a

/-- **Steps one after the other** draw what each of them does. -/
theorem Draws.bind {x : Compile α} {f : α → Compile β} (hx : c.Draws x ss)
    (hf : ∀ a, Compile.Results x a → c.Draws (f a) ss') : c.Draws (x >>= f) (ss ++ ss') := by
  intro s s' b hexec
  rw [Compile.exec_bind] at hexec
  split at hexec
  · rename_i a s₁ hfirst
    exact (hx s s₁ a hfirst).trans (hf a ⟨s, s₁, hfirst⟩ s₁ s' b hexec)
  · cases hexec

/-- Steps that come after one that draws nothing. -/
theorem Draws.after {x : Compile α} {f : α → Compile β} (hx : c.Draws x [])
    (hf : ∀ a, Compile.Results x a → c.Draws (f a) ss) : c.Draws (x >>= f) ss :=
  hx.bind hf

/-- Steps that come after one that fails. -/
theorem draws_refuse_bind (n : Node) (cause : Fault.Cause) (f : α → Compile β) (ss : List Site) :
    c.Draws (c.refuse n cause >>= f) ss := by
  intro s s' b hexec
  obtain ⟨fault, hfault⟩ := c.exec_refuse (α := α) n cause s
  rw [Compile.exec_bind, hfault] at hexec
  cases hexec

/-- A step that is followed by steps that draw nothing. -/
theorem Draws.before {x : Compile α} {f : α → Compile β} (hx : c.Draws x ss)
    (hf : ∀ a, Compile.Results x a → c.Draws (f a) []) : c.Draws (x >>= f) ss :=
  List.append_nil ss ▸ hx.bind hf

theorem Draws.map {x : Compile α} (hx : c.Draws x ss) (g : α → β) :
    c.Draws (x >>= fun a => pure (g a)) ss :=
  hx.before fun a _ => draws_pure (g a)

/-! ### Fitting the schema -/

section Steps

variable {n : Node} {lv : Level} {field name : String}

theorem draws_property : c.Draws (c.property lv n field) [] := by
  unfold property
  split
  · exact draws_pure _
  · exact draws_refuse n _ []

theorem draws_booleanProperty : c.Draws (c.booleanProperty lv n field) [] := by
  unfold booleanProperty
  refine draws_property.bind fun p _ => ?_
  split
  · exact draws_refuse n _ []
  · exact draws_pure _

/-- Looking up a block's type issues nothing. -/
theorem draws_blockType {kind : BlockKind} {p : Property} : c.Draws (c.blockType n kind p) [] := by
  unfold blockType
  have hrest : c.Draws (do
      let d ← ofOutcome (c.catalog.get p.type)
      if d.isEnum || d.abstract then
        c.refuse n (.structural (.notConcrete kind.keyword p.name p.typeName))
      return d) [] := by
    refine (draws_ofOutcome _).bind fun d _ => ?_
    split
    · exact (draws_refuse n _ []).map _
    · exact draws_pure d
  split
  · exact (draws_refuse n _ []).bind fun _ _ => hrest
  · exact hrest

/-! ### Adding rules -/

/-- Adding a rule issues nothing. -/
theorem draws_addRule (n? : Option Node) (r : Rule) : c.Draws (c.addRule n? r) [] := by
  intro s s' a hexec
  obtain ⟨_, rfl⟩ := exec_addRule hexec
  exact .nil (RuleSet.extends_append rfl) rfl

/-- The rule of a format is shared, and issues nothing. -/
theorem draws_formatTarget {p : Property} {format : String} :
    c.Draws (c.formatTarget n p format) [] := by
  unfold formatTarget
  split
  · exact draws_refuse n _ []
  · split
    · exact draws_refuse n _ []
    · rename_i r _
      intro s s' target hexec
      have hresult : (.ok r.name,
          if s.rules.has r.name then s
          else { s with rules := { s.rules with rules := s.rules.rules ++ [r] } }) =
            ((.ok target, s') : Except Fault String × Progress) := hexec
      obtain ⟨-, rfl⟩ : r.name = target ∧ _ = s' := by simpa using hresult
      split
      · exact .nil (.refl _) rfl
      · exact .nil (RuleSet.extends_append rfl) rfl

/-! ### Rules of single nodes -/

/-- A binding issues nothing. -/
theorem draws_bindingRule (format : Option String) :
    c.Draws (c.bindingRule n field format lv name) [] := by
  unfold bindingRule
  refine draws_property.bind fun p _ => ?_
  cases format with
  | none => exact (draws_pure p.ruleName).map _
  | some format => exact draws_formatTarget.map _

/-- A conditional issues nothing. -/
theorem draws_shownRule {whenTrue : String} :
    c.Draws (c.shownRule n field whenTrue lv name) [] := by
  unfold shownRule
  refine draws_booleanProperty.bind fun _ _ => ?_
  split
  · exact (draws_refuse n _ []).map _
  · exact draws_pure _

/-- Nor does one with an alternative. -/
theorem draws_choiceRule {whenTrue whenFalse : String} :
    c.Draws (c.choiceRule n field whenTrue whenFalse lv name) [] := by
  unfold choiceRule
  refine draws_booleanProperty.bind fun _ _ => ?_
  by_cases htexts : whenTrue = whenFalse
  · rw [if_pos htexts]
    exact (draws_refuse n _ []).map _
  · rw [if_neg htexts]
    exact draws_pure _

theorem draws_expressionRule (body : String) : c.Draws (expressionRule body name) [] := by
  intro s s' r hexec
  cases hexec
  exact .nil (.refl _) rfl

end Steps

/-! ### Levels -/

variable {d : SchemaType} {stem : String} {way : List String} {nodes : List Node}

/-- The parameters of a level take the next identifier. -/
theorem exec_levelParams {key : String} (hkey : d.identifier? = some key)
    (bound : List (String × String)) (s : Progress) : ∃ rest, (c.levelParams d bound).exec s =
      (.ok (⟨classKey, .const d.fqn⟩ :: ⟨key, .const (c.identifier s.issued)⟩ :: rest),
        { s with issued := s.issued + 1 }) := by
  unfold levelParams
  dsimp only
  rw [hkey]
  exact ⟨_, rfl⟩

/-- **The rule of a level** is made with the next identifier, if the values of the level have
one. -/
theorem draws_container (bound : List (String × String)) (alternatives : List (List Symbol)) :
    c.Draws (do
      let params ← c.levelParams d bound
      c.addRule none { name := stem, alternatives, action := some ⟨"object", params⟩
                       comment := some d.fqn })
      (Site.identified ⟨d, stem :: way⟩) := by
  cases hkey : d.identifier? with
  | none =>
    have hparams : c.Draws (c.levelParams d bound) [] := by
      unfold levelParams
      dsimp only
      rw [hkey]
      exact draws_pure _
    rw [Site.identified, hkey]
    exact hparams.after fun params _ => draws_addRule none _
  | some key =>
    intro s s' a hexec
    obtain ⟨rest, hparams⟩ := exec_levelParams hkey bound s
    rw [Compile.exec_bind, hparams] at hexec
    obtain ⟨hname, rfl⟩ := exec_addRule hexec
    rw [Site.identified, hkey]
    refine ⟨RuleSet.extends_append rfl, rfl, fun i site hi => ?_⟩
    obtain ⟨hlt, rfl⟩ := List.getElem?_eq_some_iff.mp hi
    obtain rfl : i = 0 := by simpa using hlt
    exact ⟨_, RuleSet.holds_append hname rfl, rfl, rfl⟩

/-- A member draws what its node does. -/
theorem draws_addMember {n : Node} {i : Nat}
    (h : ∀ name, c.Draws (c.ruleOf n ⟨d, stem⟩ name) (c.sitesOf n d way)) :
    c.Draws (c.addMember ⟨d, stem⟩ ⟨n, c.ruleOf n⟩ i) (c.sitesOf n d way) := by
  unfold addMember
  split
  · rename_i last place hnode
    obtain rfl : n = .text "" last place := hnode
    exact draws_pure _
  · exact (h _).before fun r _ => (draws_addRule _ r).map _

/-- The members draw what their nodes do, in order. -/
theorem draws_addMembers
    (h : ∀ n ∈ nodes, ∀ name, c.Draws (c.ruleOf n ⟨d, stem⟩ name) (c.sitesOf n d way))
    (start : Nat) :
    c.Draws (((c.membersOf nodes).zipIdx start).filterMapM fun (m, i) => c.addMember ⟨d, stem⟩ m i)
      (c.sitesIn nodes d way) := by
  induction nodes generalizing start with
  | nil => exact draws_pure _
  | cons n ns ih =>
    rw [membersOf, List.zipIdx_cons, List.filterMapM_cons, sitesIn]
    refine (draws_addMember (h n (by simp))).bind fun part _ => ?_
    have hrest := ih (fun m hm => h m (by simp [hm])) (start + 1)
    cases part with
    | none => exact hrest
    | some part => exact hrest.map _

/-- **The steps of a level** draw identifiers for the sites in its nodes, and then for itself. -/
theorem draws_addLevel
    (h : ∀ n ∈ nodes, ∀ name,
      c.Draws (c.ruleOf n ⟨d, stem⟩ name) (c.sitesOf n d (stem :: way))) :
    c.Draws (c.addLevel ⟨d, stem⟩ (c.membersOf nodes))
      (levelSites (c.sitesIn nodes) d (stem :: way)) := by
  unfold addLevel levelSites
  refine (draws_addMembers h 0).bind fun parts _ => ?_
  split
  · exact (draws_throw _ []).bind fun _ _ => draws_container _ _
  · exact draws_container _ _

/-- The identifiers of the sites in nodes are drawn by the steps of these, at whatever level. -/
def DrawsAll (c : Compiler) (nodes : List Node) : Prop :=
  ∀ n ∈ nodes, ∀ d stem way name, c.Draws (c.ruleOf n ⟨d, stem⟩ name) (c.sitesOf n d way)

theorem draws_addLedLevel (h : c.DrawsAll nodes) (start : String) :
    c.Draws (c.addLedLevel ⟨d, stem⟩ start (c.membersOf nodes))
      (levelSites (c.sitesIn nodes) d (stem :: way)) := by
  unfold addLedLevel
  rw [leadMembers_membersOf]
  cases hled : lead start nodes with
  | error f => exact (draws_throw f _).before fun _ ⟨_, _, hexec⟩ => nomatch hexec
  | ok led =>
    rw [← sitesIn_lead hled]
    refine draws_addLevel fun n hn name => ?_
    rcases mem_of_lead hled hn with hn | ⟨body, last, place, rfl⟩
    · exact h n hn d stem _ name
    · exact draws_pure _

/-! ### Blocks -/

section Block

variable {field name : String} {place : Text.Position}

/-- A block draws for its level. -/
theorem draws_nestedRule (h : c.DrawsAll nodes) (n : Node) {kind : BlockKind}
    (hkind : ∀ style, kind ≠ .list style) :
    c.Draws (c.nestedRule n kind field (c.membersOf nodes) ⟨d, stem⟩ name)
      (c.sitesOf (.block kind field nodes place) d way) := by
  unfold nestedRule
  refine draws_property.after fun p hp => ?_
  have hp := (yields_property n field).result hp
  refine draws_blockType.after fun e he => ?_
  have he := ((yields_blockType n kind p).result he).found
  rw [sitesOf_nested hkind hp he]
  exact (draws_addLevel fun m hm name => h m hm e field _ name).map _

/-- A list draws for its items' level, once for the first item and once for the rest. -/
theorem draws_listRule (h : c.DrawsAll nodes) (n : Node) (style : ListStyle) :
    c.Draws (c.listRule n style field (c.membersOf nodes) ⟨d, stem⟩ name)
      (c.sitesOf (.block (.list style) field nodes place) d way) := by
  unfold listRule
  refine draws_property.after fun p hp => ?_
  have hp := (yields_property n field).result hp
  by_cases harray : p.array = true
  · rw [if_pos harray]
    refine draws_blockType.after fun e he => ?_
    have he := ((yields_blockType n (.list style) p).result he).found
    rw [sitesOf_list style hp he]
    exact (draws_addLedLevel h _).bind fun _ _ => (draws_addLedLevel h _).map _
  · rw [if_neg harray]
    exact draws_refuse_bind n _ _ _

end Block

mutual

/-- **The steps of a node** draw the identifiers of the sites in it. -/
theorem draws_ruleOf (d : SchemaType) (stem : String) (way : List String) (name : String) :
    ∀ n, c.Draws (c.ruleOf n ⟨d, stem⟩ name) (c.sitesOf n d way)
  | .text .. => draws_pure _
  | .binding _ format _ => draws_bindingRule format
  | .formatted _ format _ => draws_bindingRule (some format)
  | .shown .. => draws_shownRule
  | .choice .. => draws_choiceRule
  | .block .clause _ nodes _ =>
    draws_nestedRule (draws_membersOf nodes) _ fun _ h => nomatch h
  | .block .within _ nodes _ =>
    draws_nestedRule (draws_membersOf nodes) _ fun _ h => nomatch h
  | .block (.list style) _ nodes _ => draws_listRule (draws_membersOf nodes) _ style
  | .expression body _ => draws_expressionRule body
  | .foreign .. => draws_refuse _ _ _

/-- Each node draws for its own sites, by induction on the nodes. -/
theorem draws_membersOf : ∀ nodes, c.DrawsAll nodes
  | [] => fun _ hn => nomatch hn
  | n :: ns => fun m hm d stem way name =>
    match List.mem_cons.mp hm with
    | .inl h => h ▸ draws_ruleOf d stem way name n
    | .inr h => draws_membersOf ns m h d stem way name

end

/-! ### Whole templates -/

section Template

variable {issued : Nat}

/-- **Making the rules of a template** draws the identifiers of its sites. -/
theorem drawn_of_nodeRules {own : RuleSet} (h : (c.nodeRules nodes d issued).1 = .ok own) :
    c.Drawn (c.sites nodes d) { issued }
      { rules := own, issued := (c.nodeRules nodes d issued).2 } := by
  have hlevel : c.Draws (c.addLevel ⟨d, topStem⟩ (c.membersOf nodes)) (c.sites nodes d) :=
    draws_addLevel fun n hn name => draws_membersOf nodes n hn d topStem _ name
  rw [nodeRules_eq] at h ⊢
  split at h
  · rename_i s hexec
    cases h
    exact hlevel { issued } s () hexec
  · cases h

/-- **Every site of a template has an identifier of its own**: the sites have the identifiers
that are drawn, in order, in the rules of their levels. -/
theorem drawn_of_compile (hc : c.catalog.Built) (hd : c.catalog.types.find? d.fqn = some d)
    {set : RuleSet} (h : (c.compile nodes d issued).1 = .ok set) :
    c.Drawn (c.sites nodes d) { issued }
      { rules := set, issued := (c.compile nodes d issued).2 } := by
  obtain ⟨⟨own, types, hown, hjoined⟩, _⟩ := joined_of_compile hc hd h
  have hextends : set.Extends own := RuleSet.extends_append hjoined.joins
  have hdrawn := drawn_of_nodeRules hown
  refine ⟨hextends.trans hdrawn.kept, hdrawn.issued, fun i site hi => ?_⟩
  obtain ⟨r, hr, hrule⟩ := hdrawn.rules i site hi
  exact ⟨r, hextends r hr, hrule⟩

/-- **No two sites are under one name** where identifiers are never drawn twice: the rule of that
name has the identifier of only one. -/
theorem Drawn.site_unique {s s' : Progress} (h : c.Drawn ss s s')
    (hidentifier : Function.Injective c.identifier) {i j : Nat} {site site' : Site}
    (hi : ss[i]? = some site) (hj : ss[j]? = some site') (hstem : site.stem = site'.stem) :
    i = j := by
  obtain ⟨r, hr, hname, htoken⟩ := h.rules i site hi
  obtain ⟨r', hr', hname', htoken'⟩ := h.rules j site' hj
  obtain rfl : r = r' := by
    rw [RuleSet.Holds, hname, hstem, ← hname'] at hr
    exact Option.some.inj (hr.symm.trans hr')
  have hsame := hidentifier (Option.some.inj (htoken.symm.trans htoken'))
  omega

end Template

end Compiler

end Markup

end Covenant
