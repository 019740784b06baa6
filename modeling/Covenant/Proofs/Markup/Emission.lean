import Covenant.Markup.Rules
import Covenant.Proofs.Schema.TypeRules

/-!
The rules that making a template's rules adds.

* `Emission`: a rule that is added under a name of its own, or a rule that is shared and
  added once. `Compiler.emissionsOf` lists them for a template, in order.
* `Compiler.formats`: the formats that a template asks for.
* `Fresh`: no own rule has the name of an earlier one.
* `Emits`: what a step of making rules adds to the rules there are: its emissions if
  their names are free, and otherwise it fails.
-/

namespace Covenant.Markup

/-- A rule that is added: under a name of its own, or once for all who share it. -/
inductive Emission where
  | own (name : String)
  | shared (name : String)
deriving DecidableEq, Repr

namespace Emission

def name : Emission → String
  | .own x => x
  | .shared x => x

end Emission

/-- No own rule has the name of a rule that was added before it. -/
def Fresh (es : List Emission) : Prop :=
  es.Pairwise fun a b => ∀ x, b = .own x → a.name ≠ x

instance (es : List Emission) : Decidable (Fresh es) :=
  let decideStep : DecidableRel fun a b : Emission => ∀ x, b = .own x → a.name ≠ x := fun a b =>
    match b with
    | .own y => decidable_of_iff (a.name ≠ y)
        ⟨fun h x hx => by cases hx; exact h, fun h => h y rfl⟩
    | .shared y => isTrue fun x hx => by cases hx
  List.instDecidablePairwise es

/-! ### Emissions of a template -/

/-- A node is silent if it is a text without characters. -/
def Node.silent : Node → Bool
  | .text body .. => body.isEmpty
  | _ => false

/-- A node with the rules that are added before its own, by the type of its level. -/
structure Emitter where
  node : Node
  emits : SchemaType → List Emission

/-- The rules of one level, whose last one has the name of its stem. -/
def levelEmissions (stem : String) (d : SchemaType) (members : List Emitter) : List Emission :=
  (members.zipIdx.flatMap fun (m, i) =>
    if m.node.silent then [] else m.emits d ++ [.own (stem ++ toString i)]) ++ [.own stem]

def formatEmissions (d : SchemaType) (field : String) (format : Option String) :
    List Emission :=
  match format, (d.property? field).bind fun p => Formatted.ofType? p.type with
  | some format, some k => [.shared (k.ruleName format)]
  | _, _ => []

def textEmitter (n : Node) : Emitter :=
  ⟨n, fun _ => []⟩

def ledEmitters (start : String) (members : List Emitter) : List Emitter :=
  match leadMembers Emitter.node textEmitter start members with
  | .ok led => led
  | .error _ => []

namespace Compiler

/-- The rules of a block: one level, or two for a list. -/
def blockEmissions (c : Compiler) (kind : BlockKind) (field : String) (members : List Emitter)
    (d : SchemaType) : List Emission :=
  match (d.property? field).bind fun p => c.catalog.types.find? p.type with
  | none => []
  | some e =>
    match kind with
    | .list style =>
      levelEmissions (field ++ "First") e (ledEmitters (style.leads c.settings).1 members)
        ++ levelEmissions field e (ledEmitters (style.leads c.settings).2 members)
    | _ => levelEmissions field e members

theorem blockEmissions_eq {c : Compiler} {kind : BlockKind} {field : String}
    {members : List Emitter} {d e : SchemaType} {p : Property} (hp : d.property? field = some p)
    (he : c.catalog.types.find? p.type = some e) :
    c.blockEmissions kind field members d =
      match kind with
      | .list style =>
        levelEmissions (field ++ "First") e (ledEmitters (style.leads c.settings).1 members)
          ++ levelEmissions field e (ledEmitters (style.leads c.settings).2 members)
      | _ => levelEmissions field e members := by
  rw [blockEmissions, hp, Option.bind_some, he]

mutual

/-- The rules that are added before the rule of a node, in order. -/
def emissionsOf (c : Compiler) : Node → SchemaType → List Emission
  | .binding field format _ => fun d => formatEmissions d field format
  | .formatted field format _ => fun d => formatEmissions d field (some format)
  | .block kind field nested _ => c.blockEmissions kind field (c.emittersOf nested)
  | _ => fun _ => []

/-- The nodes of a level with the rules that are added for them. -/
def emittersOf (c : Compiler) : List Node → List Emitter
  | [] => []
  | n :: ns => ⟨n, c.emissionsOf n⟩ :: c.emittersOf ns

end

theorem emittersOf_eq_map (c : Compiler) (ns : List Node) :
    c.emittersOf ns = ns.map fun n => ⟨n, c.emissionsOf n⟩ := by
  induction ns with
  | nil => rfl
  | cons n ns ih => rw [emittersOf, ih, List.map_cons]

theorem mem_emittersOf (c : Compiler) {ns : List Node} {n : Node} (h : n ∈ ns) :
    ⟨n, c.emissionsOf n⟩ ∈ c.emittersOf ns := by
  rw [emittersOf_eq_map]
  exact List.mem_map.mpr ⟨n, h, rfl⟩

/-- The format that a binding asks for, with the kind of value that it is for. -/
def boundFormat (d : SchemaType) (field format : String) : List (Formatted × String) :=
  (((d.property? field).bind fun p => Formatted.ofType? p.type).map (·, format)).toList

mutual

def formatsOf (c : Compiler) : Node → SchemaType → List (Formatted × String)
  | .binding field (some format) _ => fun d => boundFormat d field format
  | .formatted field format _ => fun d => boundFormat d field format
  | .block _ field nested _ => fun d =>
    match (d.property? field).bind fun p => c.catalog.types.find? p.type with
    | some e => c.formats nested e
    | none => []
  | _ => fun _ => []

/-- The formats that the nodes of a level ask for. -/
def formats (c : Compiler) : List Node → SchemaType → List (Formatted × String)
  | [] => fun _ => []
  | n :: ns => fun d => c.formatsOf n d ++ c.formats ns d

end

theorem mem_formats {c : Compiler} {x : Formatted × String} {ns : List Node} {d : SchemaType} :
    x ∈ c.formats ns d ↔ ∃ n ∈ ns, x ∈ c.formatsOf n d := by
  induction ns with
  | nil => simp [formats]
  | cons n ns ih => simp [formats, ih]

theorem formatsOf_block {c : Compiler} {kind : BlockKind} {field : String} {nested : List Node}
    {place : Text.Position} {d e : SchemaType} {p : Property} (hp : d.property? field = some p)
    (he : c.catalog.types.find? p.type = some e) :
    c.formatsOf (.block kind field nested place) d = c.formats nested e := by
  simp only [formatsOf, hp, Option.bind_some, he]

/-- The rules of a whole template, in the order in which they are added. -/
def emissions (c : Compiler) (nodes : List Node) (type : SchemaType) : List Emission :=
  levelEmissions topStem type (c.emittersOf nodes)

end Compiler

/-! ### Names -/

/-- The names after adding rules, or nothing if an own name is taken. -/
def absorb (names : List String) : List Emission → Option (List String)
  | [] => some names
  | .own x :: es => if x ∈ names then none else absorb (names ++ [x]) es
  | .shared x :: es => absorb (if x ∈ names then names else names ++ [x]) es

theorem absorb_append (names : List String) (es es' : List Emission) :
    absorb names (es ++ es') = (absorb names es).bind fun names => absorb names es' := by
  induction es generalizing names with
  | nil => rfl
  | cons e es ih =>
    cases e with
    | own x =>
      simp only [List.cons_append, absorb]
      split
      · rfl
      · exact ih _
    | shared x =>
      simp only [List.cons_append, absorb]
      exact ih _

theorem absorb_subset {names names' : List String} {es : List Emission}
    (h : absorb names es = some names') : names ⊆ names' := by
  induction es generalizing names with
  | nil =>
    cases h
    exact fun x hx => hx
  | cons e es ih =>
    cases e with
    | own x =>
      simp only [absorb] at h
      split at h
      · cases h
      · exact fun y hy => ih h (by simp [hy])
    | shared x =>
      simp only [absorb] at h
      intro y hy
      refine ih h ?_
      split
      · exact hy
      · simp [hy]

/-- **All own names are free** exactly when they are not among the names there are and
each is new when it is added. -/
theorem exists_absorb_iff {names : List String} {es : List Emission} :
    (∃ names', absorb names es = some names') ↔
      (∀ x, .own x ∈ es → x ∉ names) ∧ Fresh es := by
  induction es generalizing names with
  | nil => simp [absorb, Fresh]
  | cons e es ih =>
    cases e with
    | own x =>
      simp only [absorb]
      by_cases hx : x ∈ names
      · rw [if_pos hx]
        simp only [reduceCtorEq, exists_false, List.mem_cons, false_iff, not_and]
        exact fun h => absurd hx (h x (.inl rfl))
      · have hin : ∀ y, y ∉ names ++ [x] ↔ y ∉ names ∧ y ≠ x := by simp
        rw [if_neg hx, ih]
        simp only [Fresh, List.pairwise_cons, hin, List.mem_cons, Emission.own.injEq]
        constructor
        · rintro ⟨hfree, hfresh⟩
          refine ⟨?_, ?_, hfresh⟩
          · rintro y (rfl | hy)
            · exact hx
            · exact (hfree y hy).1
          · rintro b hb y rfl
            exact fun h => (hfree y hb).2 h.symm
        · rintro ⟨hfree, hhead, hfresh⟩
          exact ⟨fun y hy => ⟨hfree y (.inr hy), fun h => hhead _ hy y rfl h.symm⟩, hfresh⟩
    | shared x =>
      simp only [absorb, ih]
      simp only [Fresh, List.pairwise_cons, List.mem_cons, reduceCtorEq, false_or]
      constructor
      · rintro ⟨hfree, hfresh⟩
        refine ⟨fun y hy hmem => hfree y hy ?_, ?_, hfresh⟩
        · split
          · exact hmem
          · simp [hmem]
        · rintro b hb y rfl heq
          refine hfree y hb ?_
          subst heq
          simp only [Emission.name]
          split
          · assumption
          · simp
      · rintro ⟨hfree, hhead, hfresh⟩
        refine ⟨fun y hy hmem => ?_, hfresh⟩
        split at hmem
        · exact hfree y hy hmem
        · rcases List.mem_append.mp hmem with hmem | hmem
          · exact hfree y hy hmem
          · exact hhead _ hy y rfl (List.mem_singleton.mp hmem).symm

end Covenant.Markup
