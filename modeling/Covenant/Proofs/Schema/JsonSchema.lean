import Covenant.Proofs.Schema.Instances
import Covenant.Proofs.Schema.Lineage
import Covenant.Proofs.Schema.Names
import Covenant.Proofs.Text.Basic

/-!
What the schemas of types accept.

* `JsonSchema.Accepts`: the meaning of the keywords, as the least relation between schemas and values.
* `JsonSchema.accepts_definition_iff`: the definition of a type accepts what the type asks of data.
* `Catalog.Reached.accepts_exactly`: validation and the schema of a type accept exactly the data that
  conforms to it, for every type of every catalog.
-/

namespace Covenant

namespace JsonSchema

/-! ### The meaning of schemas -/

def IsKind (kind : String) (v : Value) : Prop :=
  match kind with
  | "null" => v = .null
  | "boolean" => ∃ b, v = .bool b
  | "integer" => v.IsWholeNumber
  | "number" => v.IsNumber
  | "string" => ∃ t, v = .text t
  | "array" => ∃ vs, v = .list vs
  | "object" => ∃ fields, v = .object fields
  | _ => False

/-- The part of a schema that a reference leads to: keys after the sign `#`, with a slash before
each. A reference in which something is escaped leads nowhere. -/
def resolve (root : Value) (ref : String) : Option Value :=
  if '~' ∈ ref.toList ∨ '%' ∈ ref.toList then none
  else
    match Text.splitAt '/' ref.toList with
    | ['#'] :: keys => keys.foldlM (fun v key => v.get? (String.ofList key)) root
    | _ => none

/-- **What a keyword asks of a value**, where `A` tells which values the schemas in it accept.
References lead into `root`, constants are texts, and formats are annotations; there are no other
keywords. -/
def Keyword (A : Value → Value → Prop) (root : Value) (ks : List (String × Value)) (v : Value)
    (e : String × Value) : Prop :=
  match e.1, e.2 with
  | "type", .text kind => IsKind kind v
  | "const", .text t => v = .text t
  | "enum", .list ts => ∃ t, v = .text t ∧ .text t ∈ ts
  | "$ref", .text ref => ∃ s, resolve root ref = some s ∧ A s v
  | "anyOf", .list ss => ∃ s ∈ ss, A s v
  | "items", s => ∀ vs, v = .list vs → ∀ w ∈ vs, A s w
  | "properties", .object ps => ∀ fields, v = .object fields → ∀ p ∈ ps, ∀ w,
      Table.find? fields p.1 = some w → A p.2 w
  | "required", .list ns => ∀ fields, v = .object fields → ∀ n, .text n ∈ ns →
      n ∈ Table.names fields
  | "additionalProperties", .bool false => ∀ fields, v = .object fields →
      ∀ n ∈ Table.names fields,
        ∃ ps, Table.find? ks "properties" = some (.object ps) ∧ n ∈ Table.names ps
  | "$schema", _ | "$defs", _ | "format", _ => True
  | _, _ => False

section

variable {A : Value → Value → Prop} {root v : Value} {ks : List (String × Value)}

@[simp]
theorem keyword_type {kind : String} :
    Keyword A root ks v ("type", .text kind) ↔ IsKind kind v := Iff.rfl

@[simp]
theorem keyword_const {t : String} : Keyword A root ks v ("const", .text t) ↔ v = .text t := Iff.rfl

@[simp]
theorem keyword_enum {ts : List Value} :
    Keyword A root ks v ("enum", .list ts) ↔ ∃ t, v = .text t ∧ .text t ∈ ts := Iff.rfl

@[simp]
theorem keyword_reference {ref : String} :
    Keyword A root ks v ("$ref", .text ref) ↔ ∃ s, resolve root ref = some s ∧ A s v := Iff.rfl

@[simp]
theorem keyword_anyOf {ss : List Value} :
    Keyword A root ks v ("anyOf", .list ss) ↔ ∃ s ∈ ss, A s v := Iff.rfl

@[simp]
theorem keyword_items {s : Value} :
    Keyword A root ks v ("items", s) ↔ ∀ vs, v = .list vs → ∀ w ∈ vs, A s w := Iff.rfl

@[simp]
theorem keyword_properties {ps : List (String × Value)} :
    Keyword A root ks v ("properties", .object ps) ↔ ∀ fields, v = .object fields → ∀ p ∈ ps, ∀ w,
      Table.find? fields p.1 = some w → A p.2 w := Iff.rfl

@[simp]
theorem keyword_required {ns : List Value} :
    Keyword A root ks v ("required", .list ns) ↔ ∀ fields, v = .object fields →
      ∀ n, .text n ∈ ns → n ∈ Table.names fields := Iff.rfl

@[simp]
theorem keyword_closed : Keyword A root ks v ("additionalProperties", .bool false) ↔
    ∀ fields, v = .object fields → ∀ n ∈ Table.names fields,
      ∃ ps, Table.find? ks "properties" = some (.object ps) ∧ n ∈ Table.names ps := Iff.rfl

@[simp]
theorem keyword_annotation {s : Value} : Keyword A root ks v ("$schema", s) ∧
    Keyword A root ks v ("$defs", s) ∧ Keyword A root ks v ("format", s) :=
  ⟨trivial, trivial, trivial⟩

end

/-- **A schema accepts a value** if all its keywords do. It is the least such relation: what the
schemas in keywords accept has been found before. -/
inductive Accepts (root : Value) : Value → Value → Prop where
  | object {ks : List (String × Value)} {v : Value} {A : Value → Value → Prop}
      (hA : ∀ s w, A s w → Accepts root s w) (h : ∀ e ∈ ks, Keyword A root ks v e) :
      Accepts root (.object ks) v

/-- A keyword asks no more when schemas accept more. -/
theorem Keyword.mono {A B : Value → Value → Prop} (hAB : ∀ s w, A s w → B s w) {root v : Value}
    {ks : List (String × Value)} {e : String × Value} (h : Keyword A root ks v e) :
    Keyword B root ks v e := by
  unfold Keyword at h ⊢
  split at h
  · exact h
  · exact h
  · exact h
  · obtain ⟨s, hs, h⟩ := h
    exact ⟨s, hs, hAB s v h⟩
  · obtain ⟨s, hs, h⟩ := h
    exact ⟨s, hs, hAB s v h⟩
  · exact fun vs hvs w hw => hAB _ w (h vs hvs w hw)
  · exact fun fields hfields p hp w hw => hAB p.2 w (h fields hfields p hp w hw)
  · exact h
  · exact h
  · trivial
  · trivial
  · trivial
  · exact h.elim

/-- **A schema accepts a value exactly if all its keywords do.** -/
theorem accepts_iff {root schema v : Value} : Accepts root schema v ↔
    ∃ ks, schema = .object ks ∧ ∀ e ∈ ks, Keyword (Accepts root) root ks v e := by
  constructor
  · rintro ⟨hA, h⟩
    exact ⟨_, rfl, fun e he => (h e he).mono hA⟩
  · rintro ⟨ks, rfl, h⟩
    exact .object (fun _ _ h => h) h

/-! ### The schemas of properties -/

variable {root v : Value} {R : String → Value → Prop}

theorem accepts_type_iff {kind : String} :
    Accepts root (.object [("type", .text kind)]) v ↔ IsKind kind v := by
  rw [accepts_iff]
  simp

theorem accepts_const_iff {t : String} :
    Accepts root (.object [("const", .text t)]) v ↔ v = .text t := by
  rw [accepts_iff]
  simp

theorem accepts_reference_iff {fqn : String} : Accepts root (.object [reference fqn]) v ↔
    ∃ s, resolve root ("#/$defs/" ++ fqn) = some s ∧ Accepts root s v := by
  rw [accepts_iff]
  simp [reference]

theorem accepts_primitive_iff {t : Primitive} :
    Accepts root (.object (primitive t)) v ↔ t.Takes v := by
  rw [accepts_iff]
  cases t <;> simp only [keyword_type, keyword_annotation, primitive, Primitive.Takes, IsKind, Value.object.injEq, exists_eq_left',
    List.forall_mem_cons, List.not_mem_nil, false_implies, implies_true, and_true]

/-- **The schema of an item** accepts the items of a property. -/
theorem accepts_item_iff {p : Property} (hR : ∀ y, p.target? = some y →
    (Accepts root (.object [reference y]) v ↔ R y v)) :
    Accepts root (.object (item p)) v ↔ Catalog.ItemLayer R p v := by
  unfold item Catalog.ItemLayer
  by_cases hrelationship : p.relationship = true
  · rw [if_pos hrelationship, if_pos hrelationship, accepts_type_iff]
    rfl
  · rw [if_neg hrelationship, if_neg hrelationship]
    cases hname : Primitive.ofName? p.type with
    | some t => exact accepts_primitive_iff
    | none =>
      refine hR p.type ?_
      simp [Property.target?, Property.isPrimitive, Primitive.isName, hname, hrelationship]

/-- **The schema of a property** accepts the values of the property. -/
theorem accepts_property_iff {p : Property} (hR : ∀ y, p.target? = some y →
    ∀ w, Accepts root (.object [reference y]) w ↔ R y w) :
    Accepts root (property p) v ↔ Catalog.PropertyLayer R p v := by
  have hitem : ∀ w, Accepts root (.object (item p)) w ↔ Catalog.ItemLayer R p w :=
    fun w => accepts_item_iff fun y hy => hR y hy w
  have hlist : Accepts root (.object [("type", .text "array"), ("items", .object (item p))]) v ↔
      ∃ vs, v = .list vs ∧ ∀ w ∈ vs, Catalog.ItemLayer R p w := by
    rw [accepts_iff]
    simp only [keyword_type, keyword_items, Value.object.injEq, exists_eq_left', List.forall_mem_cons, IsKind,
      hitem]
    constructor
    · rintro ⟨⟨vs, rfl⟩, hvs, -⟩
      exact ⟨vs, rfl, hvs vs rfl⟩
    · rintro ⟨vs, rfl, hvs⟩
      exact ⟨⟨vs, rfl⟩, by rintro _ ⟨⟩; exact hvs, by simp⟩
  have hall : Accepts root (if p.array then .object [("type", .text "array"),
      ("items", .object (item p))] else .object (item p)) v ↔
      if p.array then ∃ vs, v = .list vs ∧ ∀ w ∈ vs, Catalog.ItemLayer R p w
      else Catalog.ItemLayer R p v := by
    split
    · exact hlist
    · exact hitem v
  unfold property Catalog.PropertyLayer
  by_cases hoptional : p.optional = true
  · rw [if_pos hoptional, ← hall, accepts_iff]
    simp [hoptional, accepts_type_iff, IsKind, or_comm]
  · rw [if_neg hoptional, hall]
    simp [hoptional]

/-! ### The definitions of types -/

/-- The names that the definition of a type requires. -/
def requiredNames (d : SchemaType) : List String :=
  classKey :: (d.properties.filter fun p => !p.optional).map Property.name

theorem mem_requiredNames {d : SchemaType} {n : String} : n ∈ requiredNames d ↔
    n = classKey ∨ ∃ p ∈ d.properties, p.optional = false ∧ p.name = n := by
  simp [requiredNames, and_assoc]

/-- **The definition of a type** accepts what the type asks of data. -/
theorem accepts_definition_iff {d : SchemaType} (hR : d.isEnum = false → ∀ y ∈ d.targets,
    ∀ w, Accepts root (.object [reference y]) w ↔ R y w) :
    Accepts root (definition d) v ↔ Catalog.Layer R d v := by
  unfold definition Catalog.Layer
  by_cases henum : d.isEnum = true
  · rw [if_pos henum, if_pos henum, accepts_iff]
    simp [Value.texts, and_comm]
  rw [if_neg henum, if_neg henum, accepts_iff]
  have hproperty : ∀ p ∈ d.properties, ∀ w,
      Accepts root (property p) w ↔ Catalog.PropertyLayer R p w := fun p hp w =>
    accepts_property_iff fun y hy =>
      hR (by simpa using henum) y (List.mem_filterMap.mpr ⟨p, hp, hy⟩)
  simp only [keyword_type, keyword_properties, keyword_required, keyword_closed, Value.object.injEq,
    exists_eq_left', Value.texts, List.forall_mem_cons, IsKind,
    List.forall_mem_map, accepts_const_iff, List.not_mem_nil, false_implies, implies_true, and_true]
  constructor
  · rintro ⟨⟨fields, rfl⟩, hproperties, hrequired, hclosed⟩
    obtain ⟨hclass, hvalues⟩ := hproperties fields rfl
    have hrequired : ∀ n ∈ requiredNames d, n ∈ Table.names fields := fun n hn =>
      hrequired fields rfl n (List.mem_map_of_mem hn)
    obtain ⟨t, ht⟩ := Table.exists_find (hrequired classKey List.mem_cons_self)
    refine ⟨fields, rfl, ht.trans (congrArg some (hclass t ht)), fun n hn => ?_,
      fun p hp hoptional => hrequired p.name (mem_requiredNames.mpr (.inr ⟨p, hp, hoptional, rfl⟩)),
      fun p hp w hw => (hproperty p hp w).mp (hvalues p hp w hw)⟩
    obtain ⟨ps, hps, hn⟩ := hclosed fields rfl n hn
    cases hps
    simpa [Table.names] using hn
  · rintro ⟨fields, rfl, h⟩
    refine ⟨⟨fields, rfl⟩, ?_, ?_, ?_⟩
    · rintro _ ⟨⟩
      exact ⟨fun w hw => Option.some.inj (hw.symm.trans h.type),
        fun p hp w hw => (hproperty p hp w).mpr (h.values p hp w hw)⟩
    · rintro _ ⟨⟩ n hn
      obtain ⟨_, hn, ⟨⟩⟩ := List.mem_map.mp hn
      rcases mem_requiredNames.mp hn with rfl | ⟨p, hp, hoptional, rfl⟩
      · exact Table.mem_names_of_find h.type
      · exact h.required p hp hoptional
    · rintro _ ⟨⟩ n hn
      exact ⟨_, rfl, by simpa [Table.names] using h.keys n hn⟩

/-! ### The schema of a type -/

def document (fqn : String) (types : List SchemaType) : Value :=
  .object [("$schema", .text dialect), reference fqn,
    ("$defs", .object (types.map fun d => (d.fqn, definition d)))]

/-- **A reference to a type** leads to its definition. -/
theorem resolve_reference {fqn : String} {types : List SchemaType} {d : SchemaType} (hd : d ∈ types)
    (hunique : ∀ d' ∈ types, d'.fqn = d.fqn → d' = d)
    (hplain : ∀ c ∈ d.fqn.toList, c ≠ '/' ∧ c ≠ '~' ∧ c ≠ '%') :
    resolve (document fqn types) ("#/$defs/" ++ d.fqn) = some (definition d) := by
  have hsplit : Text.splitAt '/' ("#/$defs/" ++ d.fqn).toList =
      [['#'], "$defs".toList, d.fqn.toList] := by
    have hlist : ("#/$defs/" ++ d.fqn).toList = ['#'] ++ '/' :: ("$defs".toList ++ '/' :: d.fqn.toList) := by
      rw [String.toList_append]
      rfl
    rw [hlist, Text.splitAt_append (by decide), Text.splitAt_append (by decide),
      Text.splitAt_of_notMem fun h => (hplain _ h).1 rfl]
  have hescape : ¬('~' ∈ ("#/$defs/" ++ d.fqn).toList ∨ '%' ∈ ("#/$defs/" ++ d.fqn).toList) := by
    simp only [String.toList_append, List.mem_append]
    rintro ((h | h) | (h | h))
    · exact absurd h (by decide)
    · exact (hplain _ h).2.1 rfl
    · exact absurd h (by decide)
    · exact (hplain _ h).2.2 rfl
  have hfind : Table.find? (types.map fun d => (d.fqn, definition d)) d.fqn = some (definition d) := by
    obtain ⟨s, hs⟩ := Table.exists_find (t := types.map fun d => (d.fqn, definition d))
      (List.mem_map.mpr ⟨_, List.mem_map.mpr ⟨d, hd, rfl⟩, rfl⟩)
    obtain ⟨d', hd', heq⟩ := List.mem_map.mp (Table.mem_of_find hs)
    obtain ⟨hfqn, rfl⟩ := Prod.mk.inj heq
    rw [hs, hunique d' hd' hfqn]
  rw [resolve, if_neg hescape, hsplit]
  simp only [List.foldlM_cons, List.foldlM_nil, String.ofList_toList]
  change (Value.get? (.object _) d.fqn) >>= _ = _
  rw [Value.get?, hfind]
  rfl

theorem accepts_document_iff {fqn : String} {types : List SchemaType} :
    Accepts root (document fqn types) v ↔ Accepts root (.object [reference fqn]) v := by
  rw [accepts_reference_iff, document, accepts_iff]
  simp only [keyword_reference, keyword_annotation, reference, Value.object.injEq, exists_eq_left', List.forall_mem_cons, List.not_mem_nil,
    false_implies, implies_true, and_true, true_and]

/-- **The definitions of types accept the data that conforms**, if the types of their properties are
among them. -/
theorem accepts_type_definition_iff {c : Catalog} {fqn : String} {types : List SchemaType}
    (htypes : ∀ d ∈ types, c.types.find? d.fqn = some d) (hclosed : Catalog.TargetClosed (· ∈ types))
    (hplain : ∀ d ∈ types, ∀ x ∈ d.fqn.toList, x ≠ '/' ∧ x ≠ '~' ∧ x ≠ '%') {d : SchemaType}
    (hd : d ∈ types) (v : Value) :
    Accepts (document fqn types) (.object [reference d.fqn]) v ↔ c.ConformsTo d.fqn v := by
  refine Catalog.layer_unique
    (R := fun y v => Accepts (document fqn types) (.object [reference y]) v) hclosed
    (fun d hd v => ?_) (fun d hd v => Catalog.conformsTo_iff (htypes d hd)) hd v
  have hunique : ∀ d' ∈ types, d'.fqn = d.fqn → d' = d := fun d' hd' hfqn =>
    Option.some.inj ((htypes d' hd').symm.trans (hfqn ▸ htypes d hd))
  rw [accepts_reference_iff, resolve_reference hd hunique (hplain d hd)]
  simp only [Option.some.injEq, exists_eq_left']
  exact accepts_definition_iff fun _ _ _ _ => Iff.rfl

end JsonSchema

/-! ### Catalogs -/

namespace Catalog

variable {c : Catalog}

/-- The names of types have no characters with a meaning in references. -/
theorem Reached.plain (h : c.Reached) {d : SchemaType} (hd : c.types.find? d.fqn = some d) :
    ∀ x ∈ d.fqn.toList, x ≠ '/' ∧ x ≠ '~' ∧ x ≠ '%' := by
  obtain ⟨f, hf, t, ht, hfqn, -⟩ := (h.declared _ (Table.mem_of_find hd)).type
  have hnamed := h.named f hf
  intro x hx
  have hchar : x = '.' ∨ x.isAlphanum = true ∨ x = '_' ∨ x = '\n' := by
    rw [hfqn, String.toList_append, String.toList_append, List.mem_append, List.mem_append] at hx
    rcases hx with (hx | hx) | hx
    · exact char_of_isDottedName hnamed.ns hx
    · exact .inl (by simpa using hx)
    · exact .inr (char_of_isName (hnamed.types t ht) hx)
  refine ⟨?_, ?_, ?_⟩ <;> rintro rfl <;> exact absurd hchar (by decide)

/-- **Valid data, conforming data and accepted data are the same.** For every declared type of every catalog that adding
files leads to, and all data: validation has an answer, which is without messages if and only if the
data conforms to the type; and the type has a schema, which accepts the data under the same
condition. -/
theorem Reached.accepts_exactly (hc : c.Reached) {fqn : String} (hfqn : c.has fqn = true)
    (v : Value) :
    (∃ messages, c.validate v (some fqn) = .ok messages ∧ (messages = [] ↔ c.ConformsTo fqn v)) ∧
      ∃ schema, c.jsonSchema fqn = .ok schema ∧
        (JsonSchema.Accepts schema schema v ↔ c.ConformsTo fqn v) := by
  have hresolved := hc.sound.types
  obtain ⟨d, hfind⟩ := Table.exists_find (Table.has_iff.mp hfqn)
  obtain ⟨hmem, rfl⟩ := mem_of_find_fqn hresolved hfind
  obtain ⟨types, htypes, hexplored⟩ := components_spec hresolved (Table.mem_names_of_find hfind)
  constructor
  · obtain ⟨messages, hmessages, hnone⟩ := validate_spec hresolved hfind v
    exact ⟨messages, hmessages, hnone.trans (typeViolations_eq_nil_iff hresolved hfind v)⟩
  · refine ⟨JsonSchema.document d.fqn types, ?_, ?_⟩
    · rw [jsonSchema, htypes]
      rfl
    · have hfound : ∀ d ∈ types, c.types.find? d.fqn = some d := fun d hd =>
        find_of_mem hresolved (hexplored.typed d hd)
      have hclosed : TargetClosed (· ∈ types) := by
        intro d hd henum y hy
        exact List.mem_map.mp (hexplored.closed d hd y (by rwa [if_neg (by simp [henum])]))
      obtain ⟨d', hd', heq⟩ := List.mem_map.mp (hexplored.expanded d.fqn (by simp))
      rw [JsonSchema.accepts_document_iff, ← heq]
      exact JsonSchema.accepts_type_definition_iff hfound hclosed
        (fun d hd => hc.plain (hfound d hd)) hd' v

end Catalog

/-! ### A model of trees -/

namespace Grove

/-- A model of trees, which have trees for branches. -/
def model : ModelFile where
  ns := "grove"
  declarations :=
    [{ kind := .enumeration, name := "Kind", values := ["leaf", "fork"] },
     { kind := .concept, name := "Tree"
       properties :=
        [{ name := "kind", type := "Kind" },
         { name := "height", type := "Double", optional := true },
         { name := "branches", type := "Tree", array := true }] }]

def catalog : Catalog :=
  (Catalog.system.add model.toValue).2

def kind : SchemaType where
  fqn := "grove.Kind"
  ns := "grove"
  name := "Kind"
  kind := .enumeration
  values := ["leaf", "fork"]

def tree : SchemaType where
  fqn := "grove.Tree"
  ns := "grove"
  name := "Tree"
  kind := .concept
  properties :=
    [{ name := "kind", typeName := "Kind", type := "grove.Kind" },
     { name := "height", typeName := "Double", type := "Double", optional := true },
     { name := "branches", typeName := "Tree", type := "grove.Tree", array := true }]

theorem find_types : catalog.types.find? kind.fqn = some kind ∧
    catalog.types.find? tree.fqn = some tree := by
  decide +kernel

def leaf : Value :=
  .object [("$class", .text "grove.Tree"), ("kind", .text "leaf"), ("branches", .list [])]

/-- A tree with two branches, whose height is not known. -/
def fork : Value :=
  .object [("$class", .text "grove.Tree"), ("kind", .text "fork"), ("height", .null),
    ("branches", .list [leaf, leaf])]

theorem conforms_leaf {c : Catalog} (hkind : c.types.find? kind.fqn = some kind)
    (htree : c.types.find? tree.fqn = some tree) : c.ConformsTo tree.fqn leaf := by
  refine .object htree rfl rfl (by decide) (by decide) ?_
  intro p hp v hv
  fin_cases hp
  · cases hv
    exact .single rfl (.declared rfl rfl (.enumeration hkind rfl (by decide)))
  · cases hv
  · cases hv
    exact .array rfl (by simp)

theorem conforms_fork : catalog.ConformsTo tree.fqn fork := by
  refine .object find_types.2 rfl rfl (by decide) (by decide) ?_
  intro p hp v hv
  fin_cases hp
  · cases hv
    exact .single rfl (.declared rfl rfl (.enumeration find_types.1 rfl (by decide)))
  · cases hv
    exact .null rfl
  · cases hv
    refine .array rfl fun w hw => .declared rfl rfl ?_
    obtain rfl : w = leaf := by simpa using hw
    exact conforms_leaf find_types.1 find_types.2

end Grove

end Covenant
