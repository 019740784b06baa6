import Covenant.Proofs.Markup.Answers
import Covenant.Proofs.Markup.Evaluation

/-!
The rules of the levels of a template.

* `LevelOf`: the levels whose rules are made for a template: that of the template, those of
  clauses and values, and two for each list.
* `containerRule`: the rule of a level, read off its nodes.
* `Compiler.containers_of_compile`: every level has its rule, and a set is marked as one with
  expressions exactly if the template has one.
-/

namespace Covenant.Markup

/-! ### Levels of a template -/

/-- **The levels of a template**: its type with its nodes, and below a level the types that
its blocks lay out. The items of a list have a level for the first one and one for the
others. -/
inductive LevelOf (c : Compiler) (root : SchemaType) (template : List Node) :
    SchemaType → String → List Node → Prop where
  | top : LevelOf c root template root topStem template
  | nested {d e : SchemaType} {stem field : String} {nodes inner : List Node} {kind : BlockKind}
      {place : Text.Position} {p : Property} (h : LevelOf c root template d stem nodes)
      (hn : Node.block kind field inner place ∈ nodes) (hkind : ∀ style, kind ≠ .list style)
      (hp : d.property? field = some p) (he : c.catalog.types.find? p.type = some e) :
      LevelOf c root template e field inner
  | first {d e : SchemaType} {stem field : String} {nodes inner led : List Node}
      {style : ListStyle} {place : Text.Position} {p : Property}
      (h : LevelOf c root template d stem nodes)
      (hn : Node.block (.list style) field inner place ∈ nodes)
      (hp : d.property? field = some p) (he : c.catalog.types.find? p.type = some e)
      (hled : lead (style.leads c.settings).1 inner = .ok led) :
      LevelOf c root template e (field ++ "First") led
  | later {d e : SchemaType} {stem field : String} {nodes inner led : List Node}
      {style : ListStyle} {place : Text.Position} {p : Property}
      (h : LevelOf c root template d stem nodes)
      (hn : Node.block (.list style) field inner place ∈ nodes)
      (hp : d.property? field = some p) (he : c.catalog.types.find? p.type = some e)
      (hled : lead (style.leads c.settings).2 inner = .ok led) :
      LevelOf c root template e field led

section

variable {c : Compiler} {set : RuleSet} {root d e : SchemaType} {stem field : String}
  {template nodes : List Node}

/-- The blocks of a level that is ruled are ruled. -/
theorem RuledLevel.block (h : RuledLevel c set d stem nodes) {kind : BlockKind}
    {inner : List Node} {place : Text.Position} (hn : Node.block kind field inner place ∈ nodes) :
    ∃ name, Ruled c set d name (.block kind field inner place) := by
  obtain ⟨i, hi⟩ := List.mem_iff_getElem?.mp hn
  exact ⟨_, h.nodes _ (mem_numbered hi rfl)⟩

/-- **Every level of a template is ruled** where the template is. -/
theorem RuledLevel.levelOf (hroot : RuledLevel c set root topStem template)
    (h : LevelOf c root template e stem nodes) : RuledLevel c set e stem nodes := by
  induction h with
  | top => exact hroot
  | nested _ hn hkind hp he ih =>
    obtain ⟨name, hruled⟩ := ih.block hn
    cases hruled with
    | nested _ hp' he' _ hlevel hnodes =>
      cases hp.symm.trans hp'
      cases he.symm.trans he'.found
      exact ⟨hlevel, hnodes⟩
    | list => exact absurd rfl (hkind _)
  | first _ hn hp he hled ih =>
    obtain ⟨name, hruled⟩ := ih.block hn
    cases hruled with
    | nested hkind => exact absurd rfl (hkind _)
    | list hp' _ he' _ hfirst _ hlevel _ hnodes _ =>
      cases hp.symm.trans hp'
      cases he.symm.trans he'.found
      cases hled.symm.trans hfirst
      exact ⟨hlevel, hnodes⟩
  | later _ hn hp he hled ih =>
    obtain ⟨name, hruled⟩ := ih.block hn
    cases hruled with
    | nested hkind => exact absurd rfl (hkind _)
    | list hp' _ he' _ _ hlater _ hlevel _ hnodes =>
      cases hp.symm.trans hp'
      cases he.symm.trans he'.found
      cases hled.symm.trans hlater
      exact ⟨hlevel, hnodes⟩

end

/-! ### The rule of a level -/

/-- The rule of a level of a type: the rules of its nodes by their indices, without those of
empty texts, and a value with the type, the identifier, and each property that a node binds,
from the first such node. -/
def containerRule (d : SchemaType) (stem id : String) (nodes : List Node) : Rule :=
  { name := stem
    alternatives :=
      [(nodes.zipIdx.filter fun e => !e.1.silent).map fun e => .rule (stem ++ toString e.2)]
    action := some ⟨"object",
      ⟨classKey, .const d.fqn⟩ :: (d.identifier?.map fun key => ⟨key, .const id⟩).toList
        ++ d.properties.filterMap fun p =>
          if d.identifier? = some p.name then none
          else (nodes.findIdx? fun n => n.field? == some p.name).map fun i =>
            ⟨p.name, .ref (stem ++ toString i)⟩⟩
    comment := some d.fqn }

/-- The rules of the nodes of a level, by their indices. -/
theorem symbols_numbered (stem : String) (nodes : List Node) :
    (numbered stem nodes).map (fun e => Symbol.rule e.1) =
      (nodes.zipIdx.filter fun e => !e.1.silent).map fun e => .rule (stem ++ toString e.2) := by
  rw [numbered, List.map_filterMap, ← List.filterMap_eq_map, List.filterMap_filter]
  refine List.filterMap_congr fun e _ => ?_
  cases e.1.silent <;> rfl

/-- **The first node that binds a field** has the rule that the field is taken from. -/
theorem lookup_numbered (stem : String) (nodes : List Node) (field : String) (start : Nat) :
    (boundParts (numbered stem nodes start)).lookup field =
      (nodes.findIdx? fun n => n.field? == some field).map fun i =>
        stem ++ toString (start + i) := by
  rw [lookup_boundParts]
  induction nodes generalizing start with
  | nil => rfl
  | cons n ns ih =>
    rw [numbered_cons, List.findIdx?_cons]
    by_cases hsilent : n.silent = true
    · obtain ⟨last, place, rfl⟩ := Compiler.silent_iff.mp hsilent
      rw [if_pos hsilent, ih, if_neg (by simp [Node.field?]), Option.map_map]
      simp only [Function.comp_def, Nat.add_assoc, Nat.add_comm 1]
    · rw [if_neg hsilent]
      by_cases hfield : (n.field? == some field) = true
      · rw [if_pos hfield, List.find?_cons_of_pos (by exact hfield)]
        rfl
      · rw [if_neg hfield, List.find?_cons_of_neg (by exact hfield), ih, Option.map_map]
        simp only [Function.comp_def, Nat.add_assoc, Nat.add_comm 1]

theorem levelRule_numbered (d : SchemaType) (stem id : String) (nodes : List Node) :
    levelRule d stem id (numbered stem nodes) = containerRule d stem id nodes := by
  rw [levelRule, levelArguments, containerRule, symbols_numbered]
  simp only [lookup_numbered, Option.map_map, Function.comp_def, Nat.zero_add]

/-! ### Whole templates -/

namespace Compiler

variable {c : Compiler} {d : SchemaType}

theorem expressions_addTypes {set set' : RuleSet} {rs : List Rule}
    (h : c.addTypes set rs = .ok set') : set'.expressions = set.expressions :=
  addTypes_induction (P := fun s => s.expressions = set.expressions) (fun _ _ _ _ hs => hs) rfl h

/-- **Every level of a template has its rule**: under its stem the set has the rule that
reads the nodes of the level in order, but for empty texts, and builds a value of the level's
type of the properties that they bind. The set is marked as one with expressions exactly if
there is one in the template, at whatever depth. -/
theorem containers_of_compile (hc : c.catalog.Built) (hd : c.catalog.types.find? d.fqn = some d)
    {template : List Node} {issued : Nat} {set : RuleSet}
    (h : (c.compile template d issued).1 = .ok set) :
    (∀ e stem nodes, LevelOf c d template e stem nodes →
      ∃ id, set.find? stem = some (containerRule e stem id nodes)) ∧
    (set.expressions = true ↔ ∃ body place, Occurs (.expression body place) template) := by
  have hruled := (joined_of_compile hc hd h).2.1
  constructor
  · intro e stem nodes hlevel
    obtain ⟨id, hid⟩ := (hruled.levelOf hlevel).level.rule
    rw [levelRule_numbered] at hid
    exact ⟨id, hid⟩
  · have hanswers := answers_nodeRules hc.sound.types ⟨_, Table.mem_of_find hd, rfl⟩ template issued
    obtain ⟨own, hown, h⟩ :
        ∃ own, (c.nodeRules template d issued).1 = .ok own ∧ _ := Outcome.bind_eq_ok.mp h
    obtain ⟨types, _, h⟩ := Outcome.bind_eq_ok.mp h
    obtain ⟨joined, hjoined, h⟩ := Outcome.bind_eq_ok.mp h
    obtain ⟨_, _, h⟩ := Outcome.bind_eq_ok.mp h
    cases h
    rw [hown] at hanswers
    exact (iff_of_eq (congrArg (· = true) (expressions_addTypes hjoined))).trans hanswers

end Compiler

namespace Shop

open Covenant.Shop

/-- The clause of an item has the rule of its level, and there are no expressions. -/
theorem container_part : ∃ set, (compiler.compile itemNodes item 0).1 = .ok set ∧
    (∃ id, set.find? "part" = some (containerRule part "part" id [.binding "label" none ⟨1, 36⟩])) ∧
    set.expressions = false := by
  obtain ⟨set, hset, _⟩ := holds_itemRules
  obtain ⟨hlevels, hexpressions⟩ := Compiler.containers_of_compile built find_types.2.1 hset
  refine ⟨set, hset, hlevels part "part" _ ?_, ?_⟩
  · exact .nested .top (.tail _ (.tail _ (.head _))) (fun _ h => by cases h) rfl find_types.1
  · rw [Bool.eq_false_iff, Ne, hexpressions]
    rintro ⟨body, place, h | ⟨h, hn⟩⟩
    · simp [itemNodes] at h
    · simp only [itemNodes, List.mem_cons, reduceCtorEq, List.not_mem_nil, or_false, false_or,
        Node.block.injEq] at h
      obtain ⟨_, _, rfl, _⟩ := h
      exact not_expressive_leaf (by simp) (by simp) ⟨_, _, hn⟩

end Shop

end Covenant.Markup
