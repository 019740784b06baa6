import Covenant.Proofs.Faults
import Covenant.Proofs.Markup.Answers

/-!
The nodes that faults of a template are laid to.

* `Fault.Blames`: a fault is a misfit at the place of a node, and the property that it names is
  the field of the node; `Fault.LaidTo`: the node binds a field, unless the fault is one of a rule's
  name or of an unknown node.
* `Compile.FailsWith`: what holds of every fault of a step.
* `Compiler.failsWith_ruleOf`, `Compiler.failsWith_addLevel`: the steps of a node and of a level
  fail because of nodes in them, or without telling a place.
* `Compiler.failsWith_compile`: so does making the rules of a template.
-/

namespace Covenant

def Fault.Structure.property? : Fault.Structure → Option String
  | .undeclaredProperty p _ | .notBoolean p _ | .notComplex _ p _ | .notConcrete _ p _
  | .notArray p _ | .emptyIf p | .sameBranches p | .missingValue p => some p
  | .unformattable _ | .unknownNode _ | .emptyLevel _ | .clash _ | .rule _ => none

/-- **A misfit that is laid to a node**: it is told at the place of the node, and the property that
it names is the node's field. -/
structure Fault.Blames (f : Fault) (n : Markup.Node) : Prop where
  misfit : f.IsMisfit
  span : n.span = .ok f.span
  property : ∀ x p, f.cause = .structural x → x.property? = some p → n.field? = some p

/-- **What a node that binds no field is blamed for**: the name of its rule, or that it is of an
unknown kind. -/
structure Fault.LaidTo (f : Fault) (n : Markup.Node) : Prop extends f.Blames n where
  unbound : n.field? = none → (∃ r, f.cause = .structural (.rule r)) ∨
    ∃ kind field line column, n = .foreign kind field line column

/-- A fault that tells no place, or is laid to one of these nodes. -/
def Fault.LocatedIn (S : Markup.Node → Prop) (f : Fault) : Prop :=
  f.Unplaced ∨ ∃ n, S n ∧ f.LaidTo n

namespace Markup

open Fault

namespace Compile

variable {α β : Type} {P : Fault → Prop}

/-- A step succeeds, or fails with such a fault. -/
def FailsWith (P : Fault → Prop) (x : Compile α) : Prop :=
  ∀ s, Outcome.FailsWith P (x.exec s).1

theorem failsWith_pure (a : α) : FailsWith P (pure a) :=
  fun _ => Outcome.failsWith_ok a

theorem failsWith_throw {f : Fault} (h : P f) : FailsWith P (throw f : Compile α) :=
  fun _ => Outcome.failsWith_error h

theorem failsWith_ofOutcome {o : Outcome α} (h : o.FailsWith P) : FailsWith P (ofOutcome o) := by
  cases o with
  | ok a => exact failsWith_pure a
  | error f => exact failsWith_throw (h f rfl)

/-- **Steps one after the other** fail as one of them does. -/
theorem FailsWith.bind {x : Compile α} {k : α → Compile β} (hx : FailsWith P x)
    (hk : ∀ a, Results x a → FailsWith P (k a)) : FailsWith P (x >>= k) := by
  intro s
  have hx := hx s
  rw [exec_bind]
  cases hexec : x.exec s with
  | mk o s₁ =>
    rw [hexec] at hx
    cases o with
    | error f => exact Outcome.failsWith_error (hx f rfl)
    | ok a => exact hk a ⟨s, s₁, hexec⟩ s₁

/-- What is made of a step's result. -/
theorem FailsWith.map {x : Compile α} (hx : FailsWith P x) (g : α → β) :
    FailsWith P (x >>= fun a => pure (g a)) :=
  hx.bind fun a _ => failsWith_pure (g a)

/-- A walk over nodes fails as its step does. -/
theorem FailsWith.filterMapM {as : List α} {k : α → Compile (Option β)}
    (hk : ∀ a ∈ as, FailsWith P (k a)) : FailsWith P (as.filterMapM k) := by
  induction as with
  | nil => exact failsWith_pure []
  | cons a as ih =>
    rw [List.filterMapM_cons]
    refine (hk a List.mem_cons_self).bind fun b _ => ?_
    have hrest := ih fun a ha => hk a (List.mem_cons_of_mem _ ha)
    cases b with
    | none => exact hrest
    | some b => exact hrest.map _

end Compile

open Compile

/-- Nodes among which are, with each block, the nodes that it lays out, and with each list those
of its items with a text in front of them. -/
structure Spanning (S : Node → Prop) : Prop where
  nested : ∀ kind field nested place, S (.block kind field nested place) → ∀ n ∈ nested, S n
  led : ∀ style field nested place, S (.block (.list style) field nested place) →
    ∀ start led, lead start nested = .ok led → ∀ n ∈ led, S n

namespace Compiler

variable {c : Compiler} {α : Type} {S : Node → Prop} {n : Node} {lv : Level} {field name : String}

/-! ### Fitting the schema -/

/-- **Failing because of a node** is laid to it, if its place can be told. -/
theorem failsWith_refuse (hn : S n) {cause : Fault.Cause}
    (hcause : (∃ x, cause = .structural x) ∨ ∃ x, cause = .format x)
    (hproperty : ∀ x p, cause = .structural x → x.property? = some p → n.field? = some p)
    (hbound : n.field? = none → (∃ r, cause = .structural (.rule r)) ∨
      ∃ kind field line column, n = .foreign kind field line column) :
    FailsWith (LocatedIn S) (c.refuse n cause : Compile α) := by
  unfold refuse
  cases hspan : n.span with
  | error f =>
    refine failsWith_throw (.inl ?_)
    unfold Node.span at hspan
    split at hspan
    · cases hspan
    · split at hspan
      · cases hspan
      · cases hspan
        exact ⟨.inl rfl, fun _ _ h => nomatch h⟩
  | ok span => exact failsWith_throw (.inr ⟨n, hn, ⟨hcause, hspan, hproperty⟩, hbound⟩)

/-- A misfit of a node that binds a field, which is the one that it names if it names any. -/
theorem failsWith_refuse_structural (hn : S n) (hfield : n.field? = some field) {x : Structure}
    (hproperty : ∀ p, x.property? = some p → p = field) :
    FailsWith (LocatedIn S) (c.refuse n (.structural x) : Compile α) := by
  refine failsWith_refuse hn (.inl ⟨x, rfl⟩) (fun _ p h hp => ?_) fun hnone => ?_
  · cases h
    rw [hfield, hproperty p hp]
  · cases hfield.symm.trans hnone

/-- A property that is missing is blamed on the node that names it. -/
theorem failsWith_property (hn : S n) (hfield : n.field? = some field) :
    FailsWith (LocatedIn S) (c.property lv n field) := by
  unfold property
  split
  · exact failsWith_pure _
  · exact failsWith_refuse_structural hn hfield fun _ h => (Option.some.inj h).symm

/-- The property that a node binds has the name of its field. -/
theorem name_of_property {p : Property} (hfield : n.field? = some field)
    (h : Results (c.property lv n field) p) : n.field? = some p.name := by
  have hp : lv.type.property? field = some p := (yields_property n field).result h
  have hname : p.name = field := by simpa using List.find?_some hp
  rw [hfield, hname]

/-- A condition that is not Boolean is blamed on the node that names it. -/
theorem failsWith_booleanProperty (hn : S n) (hfield : n.field? = some field) :
    FailsWith (LocatedIn S) (c.booleanProperty lv n field) := by
  unfold booleanProperty
  refine (failsWith_property hn hfield).bind fun p _ => ?_
  split
  · exact failsWith_refuse_structural hn hfield fun _ h => (Option.some.inj h).symm
  · exact failsWith_pure _

/-- A block over the wrong property is blamed on the block. -/
theorem failsWith_blockType (hn : S n) {p : Property} (hp : n.field? = some p.name)
    (kind : BlockKind) : FailsWith (LocatedIn S) (c.blockType n kind p) := by
  have hrest : FailsWith (LocatedIn S) (do
      let d ← ofOutcome (c.catalog.get p.type)
      if d.isEnum || d.abstract then
        c.refuse n (.structural (.notConcrete kind.keyword p.name p.typeName))
      return d) := by
    refine (failsWith_ofOutcome fun f hf => ?_).bind fun d _ => ?_
    · exact .inl (Catalog.failsWith_get _ _ f hf)
    split
    · refine (failsWith_refuse_structural hn hp ?_).map _
      exact fun _ h => (Option.some.inj h).symm
    · exact failsWith_pure _
  unfold blockType
  split
  · refine (failsWith_refuse_structural hn hp ?_).bind fun _ _ => hrest
    exact fun _ h => (Option.some.inj h).symm
  · exact hrest

/-- A refused format is blamed on the node that gives it. -/
theorem failsWith_formatTarget (hn : S n) (hfield : n.field? = some field) (p : Property)
    (format : String) : FailsWith (LocatedIn S) (c.formatTarget n p format) := by
  unfold formatTarget
  split
  · exact failsWith_refuse_structural hn hfield fun _ h => nomatch h
  · split
    · rename_i hrule
      obtain ⟨x, hx⟩ := Formatted.format_of_error hrule
      exact failsWith_refuse hn (.inr ⟨x, hx⟩) (fun _ _ h => nomatch hx.symm.trans h)
        fun hnone => nomatch hfield.symm.trans hnone
    · exact fun _ => Outcome.failsWith_ok _

/-! ### Rules of single nodes -/

/-- A binding is blamed for itself. -/
theorem failsWith_bindingRule (hn : S n) (hfield : n.field? = some field) (format : Option String) :
    FailsWith (LocatedIn S) (c.bindingRule n field format lv name) := by
  unfold bindingRule
  refine (failsWith_property hn hfield).bind fun p _ => ?_
  cases format with
  | none => exact failsWith_pure _
  | some format => exact (failsWith_formatTarget hn hfield p format).map _

/-- A conditional is blamed for itself. -/
theorem failsWith_shownRule (hn : S n) (hfield : n.field? = some field) (whenTrue : String) :
    FailsWith (LocatedIn S) (c.shownRule n field whenTrue lv name) := by
  unfold shownRule
  refine (failsWith_booleanProperty hn hfield).bind fun _ _ => ?_
  split
  · refine (failsWith_refuse_structural hn hfield ?_).map _
    exact fun _ h => (Option.some.inj h).symm
  · exact failsWith_pure _

/-- So is one with an alternative. -/
theorem failsWith_choiceRule (hn : S n) (hfield : n.field? = some field)
    (whenTrue whenFalse : String) :
    FailsWith (LocatedIn S) (c.choiceRule n field whenTrue whenFalse lv name) := by
  unfold choiceRule
  refine (failsWith_booleanProperty hn hfield).bind fun _ _ => ?_
  by_cases htexts : whenTrue = whenFalse
  · rw [if_pos htexts]
    refine (failsWith_refuse_structural hn hfield ?_).map _
    exact fun _ h => (Option.some.inj h).symm
  · rw [if_neg htexts]
    exact failsWith_pure _

/-! ### Levels -/

/-- A name that is taken is blamed on the node it was made for. -/
theorem failsWith_addRule {n? : Option Node} (hn : ∀ n ∈ n?, S n) (r : Rule) :
    FailsWith (LocatedIn S) (c.addRule n? r) := by
  unfold addRule
  refine FailsWith.bind (fun _ => Outcome.failsWith_ok _) fun s _ => ?_
  split
  · exact fun _ => Outcome.failsWith_ok _
  · split
    · refine failsWith_refuse (hn _ rfl) (.inl ⟨_, rfl⟩) (fun _ _ h hp => ?_)
        fun _ => .inl ⟨_, rfl⟩
      cases h
      cases hp
    · exact failsWith_throw (.inl (unplaced_structural _ _))

theorem failsWith_levelParams (d : SchemaType) (bound : List (String × String)) :
    FailsWith (LocatedIn S) (c.levelParams d bound) := by
  unfold levelParams
  dsimp only
  split
  · simp only [pure_bind]
    exact FailsWith.map (fun _ => Outcome.failsWith_ok _) _
  · exact failsWith_pure _

/-- A member is blamed on its node or on a node inside. -/
theorem failsWith_addMember (hn : S n)
    (h : ∀ name, FailsWith (LocatedIn S) (c.ruleOf n lv name)) (i : Nat) :
    FailsWith (LocatedIn S) (c.addMember lv ⟨n, c.ruleOf n⟩ i) := by
  unfold addMember
  split
  · exact failsWith_pure _
  · refine (h _).bind fun r _ => (failsWith_addRule ?_ r).map _
    rintro m ⟨⟩
    exact hn

/-- **The steps of a level** fail because of nodes in it, or without telling a place. -/
theorem failsWith_addLevel {nodes : List Node} (hnodes : ∀ n ∈ nodes, S n)
    (h : ∀ n ∈ nodes, ∀ name, FailsWith (LocatedIn S) (c.ruleOf n lv name)) :
    FailsWith (LocatedIn S) (c.addLevel lv (c.membersOf nodes)) := by
  unfold addLevel
  refine (FailsWith.filterMapM fun m hm => ?_).bind fun parts _ => ?_
  · obtain ⟨n, hn, hmember⟩ : ∃ n ∈ nodes, m.1 = ⟨n, c.ruleOf n⟩ := by
      have hmem := List.fst_mem_of_mem_zipIdx hm
      rw [membersOf_eq_map] at hmem
      obtain ⟨n, hn, hmember⟩ := List.mem_map.mp hmem
      exact ⟨n, hn, hmember.symm⟩
    dsimp only
    rw [hmember]
    exact failsWith_addMember (hnodes n hn) (h n hn) _
  · have hrest : ∀ fields, FailsWith (LocatedIn S) (do
        let params ← c.levelParams lv.type fields
        c.addRule none
          { name := lv.stem, alternatives := [parts.map fun e => .rule e.1]
            action := some ⟨"object", params⟩, comment := some lv.type.fqn }) :=
      fun fields => (failsWith_levelParams _ fields).bind fun _ _ => failsWith_addRule (by simp) _
    split
    · exact (failsWith_throw (.inl (unplaced_structural _ _))).bind fun _ _ => hrest _
    · exact hrest _

theorem failsWith_lead (start : String) (nodes : List Node) :
    (lead start nodes).FailsWith Unplaced := by
  unfold lead leadMembers
  split
  · exact Outcome.failsWith_ok _
  · split
    · exact Outcome.failsWith_ok _
    · split
      · exact Outcome.failsWith_ok _
      · split
        · exact Outcome.failsWith_ok _
        · exact failsWith_undefined

/-- The rules of nodes fail because of nodes like them, at every level. -/
def Blaming (c : Compiler) (S : Node → Prop) (nodes : List Node) : Prop :=
  ∀ n ∈ nodes, S n ∧ ∀ lv name, FailsWith (LocatedIn S) (c.ruleOf n lv name)

variable {nodes : List Node}

/-- The faults of a level are its nodes'. -/
theorem Blaming.addLevel (h : c.Blaming S nodes) (lv : Level) :
    FailsWith (LocatedIn S) (c.addLevel lv (c.membersOf nodes)) :=
  failsWith_addLevel (fun n hn => (h n hn).1) fun n hn => (h n hn).2 lv

/-- The faults of a level with a leading line feed are its nodes'. -/
theorem Blaming.addLedLevel (h : c.Blaming S nodes)
    (hled : ∀ start led, lead start nodes = .ok led → ∀ n ∈ led, S n) (lv : Level)
    (start : String) : FailsWith (LocatedIn S) (c.addLedLevel lv start (c.membersOf nodes)) := by
  unfold Compiler.addLedLevel
  rw [leadMembers_membersOf]
  cases hfront : lead start nodes with
  | error f =>
    exact failsWith_throw (.inl (failsWith_lead start nodes f hfront))
  | ok led =>
    refine failsWith_addLevel (hled start led hfront) fun n hn name => ?_
    rcases mem_of_lead hfront hn with hn | ⟨body, last, place, rfl⟩
    · exact (h n hn).2 lv name
    · exact failsWith_pure _

/-! ### Blocks -/

/-- The faults of a block are its own or its level's. -/
theorem Blaming.nestedRule (h : c.Blaming S nodes) (hn : S n) (hfield : n.field? = some field)
    (kind : BlockKind) :
    FailsWith (LocatedIn S) (c.nestedRule n kind field (c.membersOf nodes) lv name) := by
  unfold Compiler.nestedRule
  refine (failsWith_property hn hfield).bind fun p hp => ?_
  refine (failsWith_blockType hn (name_of_property hfield hp) kind).bind fun d _ => ?_
  exact (h.addLevel _).map _

/-- The faults of a list are its own or its items'. -/
theorem Blaming.listRule (h : c.Blaming S nodes)
    (hled : ∀ start led, lead start nodes = .ok led → ∀ n ∈ led, S n) (hn : S n)
    (hfield : n.field? = some field) (style : ListStyle) :
    FailsWith (LocatedIn S) (c.listRule n style field (c.membersOf nodes) lv name) := by
  unfold Compiler.listRule
  refine (failsWith_property hn hfield).bind fun p hp => ?_
  have hlevels : FailsWith (LocatedIn S) (do
      let type ← c.blockType n (.list style) p
      c.addLedLevel ⟨type, field ++ "First"⟩ (style.leads c.settings).1 (c.membersOf nodes)
      c.addLedLevel ⟨type, field⟩ (style.leads c.settings).2 (c.membersOf nodes)
      return itemsRule name (field ++ "First") field (comment lv field)) := by
    refine (failsWith_blockType hn (name_of_property hfield hp) _).bind fun d _ => ?_
    exact (h.addLedLevel hled _ _).bind fun _ _ => (h.addLedLevel hled _ _).map _
  by_cases harray : p.array = true
  · rw [if_pos harray]
    exact hlevels
  · rw [if_neg harray]
    refine (failsWith_refuse_structural hn hfield ?_).bind fun _ _ => hlevels
    exact fun _ h => (Option.some.inj h).symm

mutual

/-- **The steps of a node** fail because of nodes in it, or without telling a place. -/
theorem failsWith_ruleOf (hS : Spanning S) (lv : Level) (name : String) :
    ∀ n, S n → FailsWith (LocatedIn S) (c.ruleOf n lv name)
  | .text .., _ => failsWith_pure _
  | .binding _ format _, hn => failsWith_bindingRule hn rfl format
  | .formatted _ format _, hn => failsWith_bindingRule hn rfl (some format)
  | .shown _ whenTrue _, hn => failsWith_shownRule hn rfl whenTrue
  | .choice _ whenTrue whenFalse _, hn => failsWith_choiceRule hn rfl whenTrue whenFalse
  | .block .clause _ nodes _, hn =>
    (blaming_membersOf hS nodes (hS.nested _ _ _ _ hn)).nestedRule hn rfl .clause
  | .block .within _ nodes _, hn =>
    (blaming_membersOf hS nodes (hS.nested _ _ _ _ hn)).nestedRule hn rfl .within
  | .block (.list style) _ nodes _, hn =>
    (blaming_membersOf hS nodes (hS.nested _ _ _ _ hn)).listRule (hS.led _ _ _ _ hn) hn rfl style
  | .expression .., _ => fun _ => Outcome.failsWith_ok _
  | .foreign .., hn => failsWith_refuse hn (.inl ⟨_, rfl⟩) (fun _ _ h hp => by cases h; cases hp)
      fun _ => .inr ⟨_, _, _, _, rfl⟩

/-- Every fault names a node of the text, by induction on the nodes. -/
theorem blaming_membersOf (hS : Spanning S) : ∀ nodes, (∀ n ∈ nodes, S n) → c.Blaming S nodes
  | [], _ => fun _ hn => nomatch hn
  | n :: ns, hnodes => fun m hm =>
    match List.mem_cons.mp hm with
    | .inl h => h ▸ ⟨hnodes n List.mem_cons_self, fun lv name =>
        failsWith_ruleOf hS lv name n (hnodes n List.mem_cons_self)⟩
    | .inr h => blaming_membersOf hS ns (fun n hn => hnodes n (List.mem_cons_of_mem _ hn)) m h

end

/-! ### Whole templates -/

/-- Nodes that bind fields in a template, and all others that bind none. -/
def Among (nodes : List Node) (n : Node) : Prop :=
  Occurs n nodes ∨ n.field? = none

/-- **The nodes that rules are made for**: those of a template at any depth, and those of the items
of its lists with a text in front of them. -/
inductive Spread (nodes : List Node) (n : Node) : Prop where
  | occurs (h : Occurs n nodes) : Spread nodes n
  | led {style : ListStyle} {field start : String} {nested led : List Node} {place : Text.Position}
      (h : Occurs (.block (.list style) field nested place) nodes)
      (hled : lead start nested = .ok led) (hn : n ∈ led) : Spread nodes n

/-- What stands in front of items binds nothing. -/
theorem Spread.occurs_of_field {nodes : List Node} (h : Spread nodes n)
    (hfield : n.field? = some field) : Occurs n nodes := by
  cases h with
  | occurs h => exact h
  | led h hled hn =>
    rcases mem_of_lead hled hn with hn | ⟨body, last, place, rfl⟩
    · exact h.of_block (.here hn)
    · cases hfield

theorem Spread.among {nodes : List Node} (h : Spread nodes n) : Among nodes n := by
  cases hfield : n.field? with
  | none => exact .inr hfield
  | some field => exact .inl (h.occurs_of_field hfield)

theorem spanning_spread (nodes : List Node) : Spanning (Spread nodes) where
  nested _ _ _ _ h _ hn := .occurs ((h.occurs_of_field rfl).of_block (.here hn))
  led _ _ _ _ h _ _ hled _ hn := .led (h.occurs_of_field rfl) hled hn

/-- The compilation of the nodes as a whole. -/
theorem failsWith_nodeRules (nodes : List Node) (d : SchemaType) (issued : Nat) :
    (c.nodeRules nodes d issued).1.FailsWith (LocatedIn (Spread nodes)) := by
  have hlevel := (blaming_membersOf (c := c) (spanning_spread nodes) nodes
    fun n hn => .occurs (.here hn)).addLevel ⟨d, topStem⟩ { issued }
  rw [nodeRules_eq]
  cases hexec : (c.addLevel ⟨d, topStem⟩ (c.membersOf nodes)).exec { issued } with
  | mk o s =>
    rw [hexec] at hlevel
    cases o with
    | error f => exact Outcome.failsWith_error (hlevel f rfl)
    | ok a => exact Outcome.failsWith_ok _

theorem failsWith_addTypes (set : RuleSet) (types : List Rule) :
    (c.addTypes set types).FailsWith Unplaced := by
  induction types generalizing set with
  | nil => exact Outcome.failsWith_ok _
  | cons r rs ih =>
    rw [addTypes]
    split
    · exact ih _
    · split
      · exact Outcome.failsWith_error (unplaced_structural _ _)
      · exact ih _

/-- **Making the rules of a template** fails because of one of its nodes, or without telling a
place. -/
theorem failsWith_compile (nodes : List Node) (d : SchemaType) (issued : Nat) :
    (c.compile nodes d issued).1.FailsWith (LocatedIn (Spread nodes)) := by
  refine (failsWith_nodeRules nodes d issued).bind fun own _ => ?_
  refine Outcome.FailsWith.bind ?_ fun types _ => ?_
  · exact fun f h => .inl (Catalog.failsWith_rules _ _ _ f h)
  · refine Outcome.FailsWith.bind ?_ fun set _ => Outcome.FailsWith.bind ?_ fun _ _ => ?_
    · exact fun f h => .inl (failsWith_addTypes _ _ f h)
    · exact fun f h => .inl (RuleSet.failsWith_check _ f h)
    · exact Outcome.failsWith_ok _

end Compiler

end Markup

end Covenant
