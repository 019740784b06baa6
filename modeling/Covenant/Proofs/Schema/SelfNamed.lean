import Covenant.Proofs.Schema.Definitions

/-!
Data that names its own type.

* `JsonSchema.WellFormed`: a schema whose keywords all have the form that the dialect asks for.
* `JsonSchema.wellFormed_document`: the schemas of types are well formed.
* `Catalog.Reached.exists_schema`: so every declared type has a schema to check data with.
* `Catalog.namedType_spec`: the type that data names is found, unless a list or an object stands
  where its name is expected.
* `Catalog.Reached.validate_named`: then validation answers for all data, and otherwise for none.
-/

namespace Covenant

/-! ### Schemas -/

namespace JsonSchema

def kinds : List String :=
  ["null", "boolean", "integer", "number", "string", "array", "object"]

/-- **The form of a keyword** in the dialect, where `S` tells which values are schemas. There are no
other keywords in the schemas of types. -/
def KeywordForm (S : Value → Prop) (e : String × Value) : Prop :=
  match e.1, e.2 with
  | "$schema", .text _ | "$ref", .text _ | "format", .text _ | "const", _ | "enum", .list _ => True
  | "type", .text kind => kind ∈ kinds
  | "anyOf", .list ss => ss ≠ [] ∧ ∀ s ∈ ss, S s
  | "items", s | "additionalProperties", s => S s
  | "properties", .object ps | "$defs", .object ps => (Table.names ps).Nodup ∧ ∀ p ∈ ps, S p.2
  | "required", .list ns => ns.Nodup ∧ ∀ n ∈ ns, ∃ t, n = .text t
  | _, _ => False

/-- **A well-formed schema**: a truth value, or an object whose keywords differ and have the form
that the dialect asks for. The schemas in them are well formed as well. -/
inductive WellFormed : Value → Prop where
  | bool (b : Bool) : WellFormed (.bool b)
  | object {ks : List (String × Value)} {S : Value → Prop} (hS : ∀ s, S s → WellFormed s)
      (hnames : (Table.names ks).Nodup) (h : ∀ e ∈ ks, KeywordForm S e) : WellFormed (.object ks)

theorem wellFormed_object {ks : List (String × Value)} (hnames : (Table.names ks).Nodup)
    (h : ∀ e ∈ ks, KeywordForm WellFormed e) : WellFormed (.object ks) :=
  .object (fun _ hs => hs) hnames h

/-- A schema that asks for a kind of values. -/
theorem wellFormed_type {kind : String} (h : kind ∈ kinds) :
    WellFormed (.object [("type", .text kind)]) := by
  apply wellFormed_object (by simp [Table.names])
  rintro e he
  obtain rfl := List.mem_singleton.mp he
  exact h

theorem wellFormed_reference (fqn : String) : WellFormed (.object [reference fqn]) := by
  apply wellFormed_object (by simp [Table.names])
  intro e he
  obtain rfl := List.mem_singleton.mp he
  trivial

theorem wellFormed_primitive (t : Primitive) : WellFormed (.object (primitive t)) := by
  cases t with
  | dateTime =>
    apply wellFormed_object (by simp [Table.names, primitive])
    rw [primitive, List.forall_mem_cons, List.forall_mem_singleton]
    exact ⟨(by decide : "string" ∈ kinds), trivial⟩
  | _ => exact wellFormed_type (by decide)

theorem wellFormed_item (p : Property) : WellFormed (.object (item p)) := by
  unfold item
  split
  · exact wellFormed_type (by decide)
  · split
    · exact wellFormed_primitive _
    · exact wellFormed_reference p.type

theorem wellFormed_property (p : Property) : WellFormed (property p) := by
  have hall : WellFormed (if p.array then
      .object [("type", .text "array"), ("items", .object (item p))] else .object (item p)) := by
    split
    · apply wellFormed_object (by simp [Table.names])
      rw [List.forall_mem_cons, List.forall_mem_singleton]
      exact ⟨(by decide : "array" ∈ kinds), wellFormed_item p⟩
    · exact wellFormed_item p
  by_cases hoptional : p.optional = true
  · rw [property, if_pos hoptional]
    apply wellFormed_object (by simp [Table.names])
    rw [List.forall_mem_singleton]
    refine ⟨List.cons_ne_nil _ _, ?_⟩
    rw [List.forall_mem_cons, List.forall_mem_singleton]
    exact ⟨hall, wellFormed_type (by decide)⟩
  · rw [property, if_neg hoptional]
    exact hall

/-- **The definition of a type** is well formed if the names of its properties differ from each
other and from the key of types. -/
theorem wellFormed_definition {d : SchemaType}
    (hkeys : (classKey :: d.properties.map Property.name).Nodup) : WellFormed (definition d) := by
  unfold definition
  split
  · apply wellFormed_object (by simp [Table.names])
    rw [List.forall_mem_singleton]
    trivial
  · have hconst : WellFormed (.object [("const", .text d.fqn)]) := by
      apply wellFormed_object (by simp [Table.names])
      rw [List.forall_mem_singleton]
      trivial
    have hrequired : (requiredNames d).Nodup :=
      hkeys.sublist ((List.filter_sublist.map Property.name).cons_cons classKey)
    have hnames : Table.names ((classKey, Value.object [("const", .text d.fqn)]) ::
        d.properties.map fun p => (p.name, property p)) =
          classKey :: d.properties.map Property.name := by
      simp [Table.names]
    apply wellFormed_object (by simp [Table.names])
    rw [List.forall_mem_cons, List.forall_mem_cons, List.forall_mem_cons, List.forall_mem_singleton]
    refine ⟨(by decide : "object" ∈ kinds), ⟨hnames ▸ hkeys, ?_⟩, ⟨?_, ?_⟩, .bool false⟩
    · rw [List.forall_mem_cons, List.forall_mem_map]
      exact ⟨hconst, fun p _ => wellFormed_property p⟩
    · exact hrequired.map fun _ _ h => Value.text.inj h
    · rw [List.forall_mem_map]
      exact fun t _ => ⟨t, rfl⟩

/-- **A schema with definitions** is well formed if they are, and are of different types. -/
theorem wellFormed_document {fqn : String} {types : List SchemaType}
    (hnodup : (types.map (·.fqn)).Nodup) (h : ∀ d ∈ types, WellFormed (definition d)) :
    WellFormed (document fqn types) := by
  have hnames : Table.names (types.map fun d => (d.fqn, definition d)) = types.map (·.fqn) := by
    simp [Table.names]
  apply wellFormed_object (by simp [Table.names, reference])
  rw [List.forall_mem_cons, List.forall_mem_cons, List.forall_mem_singleton]
  refine ⟨trivial, trivial, hnames ▸ hnodup, ?_⟩
  rw [List.forall_mem_map]
  exact h

end JsonSchema

namespace Catalog

variable {c : Catalog} {fqn : String} {v : Value}

/-- **Every declared type has a schema** that is well formed and whose references all lead
somewhere. -/
theorem Reached.exists_schema (hc : c.Reached) (hfqn : c.has fqn = true) :
    ∃ schema, c.jsonSchema fqn = .ok schema ∧ JsonSchema.WellFormed schema ∧
      ∀ ref ∈ schema.references, ∃ s, JsonSchema.resolve schema ref = some s := by
  have hnames := Table.has_iff.mp hfqn
  obtain ⟨types, hschema, hdefines⟩ := jsonSchema_spec hc.sound.types hnames
  refine ⟨_, hschema, ?_, ?_⟩
  · apply JsonSchema.wellFormed_document hdefines.nodup
    intro d hd
    exact JsonSchema.wellFormed_definition (hc.nodup_keys ((hdefines.mem_iff d).mp hd).1)
  · intro ref href
    obtain ⟨x, hreach, rfl⟩ := hdefines.reached_of_reference href
    obtain ⟨d, hd, rfl⟩ := exists_find_of_composes hc.sound.types hnames hreach
    exact ⟨_, hdefines.resolve_reference hc hd hreach⟩

end Catalog

/-! ### The type that data names -/

/-- **Data that has a list or an object where the name of its type is expected.** -/
def Value.NamesByParts (v : Value) : Prop :=
  (∃ vs, v.get? classKey = some (.list vs)) ∨ ∃ fields, v.get? classKey = some (.object fields)

/-- **Data that names a declared type** under `$class`. -/
def Catalog.Names (c : Catalog) (v : Value) (fqn : String) : Prop :=
  v.get? classKey = some (.text fqn) ∧ c.has fqn = true

namespace Catalog

variable {c : Catalog} {fqn : String} {v : Value}

theorem namedType_of_parts (h : v.NamesByParts) : c.namedType v = .fail .undefined := by
  unfold namedType
  rcases h with ⟨vs, h⟩ | ⟨fields, h⟩ <;> rw [h]

/-- **The type that data names**, if it is declared; otherwise a message. -/
theorem namedType_spec (h : ¬ v.NamesByParts) :
    (∃ fqn, c.Names v fqn ∧ c.namedType v = .ok (.ok fqn)) ∨
      (∀ fqn, ¬ c.Names v fqn) ∧ ∃ message, c.namedType v = .ok (.error message) := by
  have hother : ∀ {found : Option Value}, v.get? classKey = found →
      (∀ fqn, found ≠ some (.text fqn)) → ∀ fqn, ¬ c.Names v fqn :=
    fun hname hnot fqn hfqn => hnot fqn (hname.symm.trans hfqn.1)
  cases hname : v.get? classKey with
  | none => exact .inr ⟨hother hname (by simp), _, by rw [namedType, hname]⟩
  | some name =>
    cases name with
    | list vs => exact absurd (.inl ⟨vs, hname⟩) h
    | object fields => exact absurd (.inr ⟨fields, hname⟩) h
    | text fqn =>
      by_cases hfqn : c.has fqn = true
      · refine .inl ⟨fqn, ⟨hname, hfqn⟩, ?_⟩
        rw [namedType, hname]
        simp [Value.text?, Value.plain, hfqn]
      · refine .inr ⟨?_, "root: $class " ++ fqn ++ " is not declared", ?_⟩
        · rintro fqn' ⟨hname', hdeclared⟩
          obtain rfl : fqn = fqn' := Value.text.inj (Option.some.inj (hname.symm.trans hname'))
          exact hfqn hdeclared
        · rw [namedType, hname]
          simp [Value.text?, Value.plain, hfqn]
    | _ => exact .inr ⟨hother hname (by simp), _, by rw [namedType, hname]; rfl⟩

/-! ### Validation -/

/-- Data is checked against the type that it names. -/
theorem validate_of_named (h : c.namedType v = .ok (.ok fqn)) :
    c.validate v = c.validate v (some fqn) := by
  rw [validate, validate, h]
  rfl

/-- **Validation answers** for data that has no list or object where the name of its type is
expected: without messages if the data names a declared type and conforms to it. -/
theorem Reached.exists_validate (hc : c.Reached) (h : ¬ v.NamesByParts) :
    ∃ messages, c.validate v = .ok messages ∧
      (messages = [] ↔ ∃ fqn, c.Names v fqn ∧ c.ConformsTo fqn v) := by
  rcases namedType_spec (c := c) h with ⟨fqn, hnames, hnamed⟩ | ⟨hnone, message, hnamed⟩
  · obtain ⟨d, hfind⟩ := Table.exists_find (Table.has_iff.mp hnames.2)
    obtain ⟨-, rfl⟩ := mem_of_find_fqn hc.sound.types hfind
    obtain ⟨messages, hmessages, hempty⟩ := validate_spec hc.sound.types hfind v
    refine ⟨messages, (validate_of_named hnamed).trans hmessages, ?_⟩
    rw [hempty, typeViolations_eq_nil_iff hc.sound.types hfind]
    constructor
    · intro hconforms
      exact ⟨d.fqn, hnames, hconforms⟩
    · rintro ⟨fqn, hnames', hconforms⟩
      obtain rfl : fqn = d.fqn :=
        Value.text.inj (Option.some.inj (hnames'.1.symm.trans hnames.1))
      exact hconforms
  · refine ⟨[message], by rw [validate, hnamed]; rfl, ?_⟩
    constructor
    · intro hnil
      cases hnil
    · rintro ⟨fqn, hnames, -⟩
      exact absurd hnames (hnone fqn)

/-- What data is said to be instead of an instance: what it names its type. -/
def target (v : Value) : String :=
  ((v.get? classKey).map Value.plain).getD "None"

/-- **Checking follows validation**: it accepts data without messages, and refuses other data with
all of them. -/
theorem checkData_of_validate {messages : List String} (h : c.validate v = .ok messages) :
    c.checkData v = if messages = [] then .ok ()
      else .fail (.validity (.nonconforming (target v) messages)) := by
  rw [checkData, h]
  cases messages with
  | nil => rfl
  | cons message messages => rfl

/-- **Data that names its own type.** If a list or an object stands under `$class`, neither
validation nor checking has an answer. For all other data validation answers, without messages just
if the data names a declared type and conforms to it, and checking accepts the data or refuses it
with the messages. The schema of every declared type is there, is well formed, and leads somewhere
with each of its references. -/
theorem Reached.validate_named (hc : c.Reached) (v : Value) :
    (v.NamesByParts → c.validate v = .fail .undefined ∧ c.checkData v = .fail .undefined) ∧
      (¬ v.NamesByParts → ∃ messages, c.validate v = .ok messages ∧
        (messages = [] ↔ ∃ fqn, c.Names v fqn ∧ c.ConformsTo fqn v) ∧
        c.checkData v = if messages = [] then .ok ()
          else .fail (.validity (.nonconforming (target v) messages))) ∧
      ∀ fqn, c.has fqn = true → ∃ schema, c.jsonSchema fqn = .ok schema ∧
        JsonSchema.WellFormed schema ∧
        ∀ ref ∈ schema.references, ∃ s, JsonSchema.resolve schema ref = some s := by
  refine ⟨?_, ?_, fun fqn hfqn => hc.exists_schema hfqn⟩
  · intro h
    have hvalidate : c.validate v = .fail .undefined := by
      rw [validate, namedType_of_parts h]
      rfl
    refine ⟨hvalidate, ?_⟩
    rw [checkData, hvalidate]
    rfl
  · intro h
    obtain ⟨messages, hmessages, hempty⟩ := hc.exists_validate h
    exact ⟨messages, hmessages, hempty, checkData_of_validate hmessages⟩

end Catalog

namespace Grove

def listed : Value :=
  .object [("$class", .list [.text "grove.Tree"]), ("kind", .text "leaf"), ("branches", .list [])]

/-- **A fork** names its type and conforms to it, so it is valid; a tree with a list for its type
has no answer. -/
theorem validate_fork_listed : catalog.Reached ∧ catalog.validate fork = .ok [] ∧
    catalog.checkData fork = .ok () ∧ catalog.checkData listed = .fail .undefined := by
  have hc : catalog.Reached := .add .system _ _
  have hhas : catalog.has tree.fqn = true :=
    Table.has_iff.mpr (Table.mem_names_of_find find_types.2)
  have hplain : ¬ fork.NamesByParts := by
    rintro (⟨_, h⟩ | ⟨_, h⟩) <;> cases h
  obtain ⟨messages, hvalidate, hempty, hcheck⟩ := (hc.validate_named fork).2.1 hplain
  have hnil : messages = [] := hempty.mpr ⟨tree.fqn, ⟨rfl, hhas⟩, conforms_fork⟩
  rw [if_pos hnil] at hcheck
  exact ⟨hc, hnil ▸ hvalidate, hcheck, ((hc.validate_named listed).1 (.inl ⟨_, rfl⟩)).2⟩

/-- **Not all data has an answer**: a list under `$class` is not even looked up. -/
theorem not_answered : ¬ ∀ (c : Catalog) (v : Value), c.Reached →
    (∃ messages, c.validate v = .ok messages) ∧
      (c.checkData v = .ok () ∨ ∃ cause, c.checkData v = .fail (.validity cause)) := by
  intro h
  obtain ⟨⟨messages, hvalidate⟩, -⟩ := h Catalog.system (.object [("$class", .list [])]) .system
  cases hvalidate

end Grove

end Covenant
