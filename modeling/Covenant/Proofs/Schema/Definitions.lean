import Covenant.Schema.JsonSchema
import Covenant.Proofs.Schema.JsonSchema

/-!
The definitions that a schema refers to.

* `Catalog.Composes`: one step from a type to the types that instances of it are made of.
* `Catalog.Defined`: what collecting definitions adds to a table. `Catalog.define_spec`: collecting
  them depth first ends, and adds this.
* `Value.references`: the references in a schema, at whatever depth.
* `Catalog.Reached.jsonSchema_closed`: the schema of a type has a definition for each type that
  steps lead to, and its references lead to them.
-/

namespace Covenant

namespace Catalog

variable {c : Catalog}

/-! ### Steps -/

/-- One step from a type to a type that instances of it are made of: that of a property which is
neither primitive nor a relationship. Enumerations are not made of anything. -/
def Composes (c : Catalog) (x y : String) : Prop :=
  ∃ d, c.types.find? x = some d ∧ d.isEnum = false ∧
    ∃ p ∈ d.properties, p.isPrimitive = false ∧ p.relationship = false ∧ p.type = y

theorem mem_targets_iff {d : SchemaType} {y : String} : y ∈ d.targets ↔
    ∃ p ∈ d.properties, p.isPrimitive = false ∧ p.relationship = false ∧ p.type = y := by
  simp only [SchemaType.targets, List.mem_filterMap, Property.target?]
  refine exists_congr fun p => and_congr_right fun _ => ?_
  cases p.isPrimitive <;> cases p.relationship <;> simp

theorem composes_iff {x y : String} : c.Composes x y ↔
    ∃ d, c.types.find? x = some d ∧ y ∈ if d.isEnum then [] else d.targets := by
  refine exists_congr fun d => and_congr_right fun _ => ?_
  cases d.isEnum <;> simp [mem_targets_iff]

theorem composes_iff_of_find {x y : String} {d : SchemaType} (hd : c.types.find? x = some d) :
    c.Composes x y ↔ d.isEnum = false ∧ y ∈ d.targets := by
  rw [composes_iff, hd]
  cases henum : d.isEnum <;> simp [henum]

/-! ### Depth first -/

/-- **What collecting definitions adds to a table**: the types asked for are there, the entries
that were there before are as they were, and each new entry is the definition of a type which is
reached from those asked for, together with all types that it is made of. -/
structure Defined (c : Catalog) (defs : Table Value) (roots : List String) (defs' : Table Value) :
    Prop where
  nodup : defs.names.Nodup → defs'.names.Nodup
  kept : ∀ x ∈ defs.names, defs'.find? x = defs.find? x
  entered : ∀ x ∈ roots, x ∈ defs'.names
  made : ∀ x ∈ defs'.names, x ∉ defs.names → ∃ d, c.types.find? x = some d ∧
    defs'.find? x = some (JsonSchema.definition d) ∧ (∀ y, c.Composes x y → y ∈ defs'.names) ∧
    ∃ r ∈ roots, Relation.ReflTransGen c.Composes r x

variable {defs mid defs' : Table Value} {roots roots' : List String} {fqn : String}

theorem Defined.names_subset (h : Defined c defs roots defs') : defs.names ⊆ defs'.names := by
  intro x hx
  obtain ⟨v, hv⟩ := Table.exists_find hx
  exact Table.mem_names_of_find ((h.kept x hx).trans hv)

theorem Defined.refl (c : Catalog) (defs : Table Value) : Defined c defs [] defs :=
  ⟨id, fun _ _ => rfl, fun _ h => (List.not_mem_nil h).elim, fun _ h hnew => absurd h hnew⟩

/-- Collecting more definitions. -/
theorem Defined.trans (h : Defined c defs roots mid) (h' : Defined c mid roots' defs') :
    Defined c defs (roots ++ roots') defs' where
  nodup hdefs := h'.nodup (h.nodup hdefs)
  kept x hx := (h'.kept x (h.names_subset hx)).trans (h.kept x hx)
  entered x hx := (List.mem_append.mp hx).elim (fun hx => h'.names_subset (h.entered x hx))
    (h'.entered x)
  made x hx hnew := by
    by_cases hmid : x ∈ mid.names
    · obtain ⟨d, hd, hdef, hparts, r, hr, hreach⟩ := h.made x hmid hnew
      exact ⟨d, hd, (h'.kept x hmid).trans hdef, fun y hy => h'.names_subset (hparts y hy),
        r, List.mem_append_left _ hr, hreach⟩
    · obtain ⟨d, hd, hdef, hparts, r, hr, hreach⟩ := h'.made x hx hmid
      exact ⟨d, hd, hdef, hparts, r, List.mem_append_right _ hr, hreach⟩

/-- A type that is there already. -/
theorem Defined.present (hfqn : fqn ∈ defs.names) : Defined c defs [fqn] defs :=
  ⟨id, fun _ _ => rfl, fun _ hx => List.mem_singleton.mp hx ▸ hfqn, fun _ h hnew => absurd h hnew⟩

/-- **A type takes its place** once the types that it is made of have been defined, beside its
unfinished entry. -/
theorem Defined.finish {d : SchemaType} (hd : c.types.find? fqn = some d) (hnew : fqn ∉ defs.names)
    {v : Value} (h : Defined c (defs.put fqn v) roots mid)
    (hroots : ∀ y, y ∈ roots ↔ c.Composes fqn y) :
    Defined c defs [fqn] (mid.put fqn (JsonSchema.definition d)) where
  nodup hdefs := Table.nodup_names_put (h.nodup (Table.nodup_names_put hdefs _ _)) _ _
  kept x hx := by
    have hne : x ≠ fqn := fun heq => hnew (heq ▸ hx)
    rw [Table.find_put, if_neg hne, h.kept x (Table.mem_names_put.mpr (.inr hx)), Table.find_put,
      if_neg hne]
  entered x hx := Table.mem_names_put.mpr (.inl (List.mem_singleton.mp hx))
  made x hx hx' := by
    by_cases hxfqn : x = fqn
    · subst hxfqn
      exact ⟨d, hd, by rw [Table.find_put, if_pos rfl],
        fun y hy => Table.mem_names_put.mpr (.inr (h.entered y ((hroots y).mpr hy))),
        x, List.mem_singleton_self _, .refl⟩
    · have hmid := (Table.mem_names_put.mp hx).resolve_left hxfqn
      have hmarked : x ∉ (defs.put fqn v).names := fun hmem =>
        (Table.mem_names_put.mp hmem).elim hxfqn hx'
      obtain ⟨e, he, hdef, hparts, r, hr, hreach⟩ := h.made x hmid hmarked
      exact ⟨e, he, by rw [Table.find_put, if_neg hxfqn, hdef],
        fun y hy => Table.mem_names_put.mpr (.inr (hparts y hy)),
        fqn, List.mem_singleton_self _, .head ((hroots r).mp hr) hreach⟩

/-- An enumeration is defined at once. -/
theorem Defined.enumeration {d : SchemaType} (hd : c.types.find? fqn = some d)
    (henum : d.isEnum = true) (hnew : fqn ∉ defs.names) :
    Defined c defs [fqn] (defs.put fqn (JsonSchema.definition d)) where
  nodup hdefs := Table.nodup_names_put hdefs _ _
  kept x hx := by
    have hne : x ≠ fqn := fun heq => hnew (heq ▸ hx)
    rw [Table.find_put, if_neg hne]
  entered x hx := Table.mem_names_put.mpr (.inl (List.mem_singleton.mp hx))
  made x hx hx' := by
    obtain rfl := (Table.mem_names_put.mp hx).resolve_right hx'
    refine ⟨d, hd, by rw [Table.find_put, if_pos rfl], fun y hy => ?_, x,
      List.mem_singleton_self _, .refl⟩
    have hnone := ((composes_iff_of_find hd).mp hy).1
    rw [henum] at hnone
    cases hnone

def undefinedTypes (c : Catalog) (defs : Table Value) : Nat :=
  (c.types.filter fun e => !defs.has e.1).length

theorem undefinedTypes_le (hsub : defs.names ⊆ defs'.names) :
    c.undefinedTypes defs' ≤ c.undefinedTypes defs := by
  refine (List.monotone_filter_right c.types fun e he => ?_).length_le
  rw [Bool.not_eq_true', Bool.eq_false_iff, Ne, Table.has_iff] at he ⊢
  exact fun hmem => he (hsub hmem)

/-- Entering a type leaves one type less. -/
theorem undefinedTypes_put_lt (hfqn : fqn ∈ c.types.names) (hnew : fqn ∉ defs.names) (v : Value) :
    c.undefinedTypes (defs.put fqn v) < c.undefinedTypes defs := by
  obtain ⟨e, he, rfl⟩ := List.mem_map.mp hfqn
  have hfilter : (c.types.filter fun e' => !(defs.put e.1 v).has e'.1) =
      (c.types.filter fun e' => !defs.has e'.1).filter fun e' => !(defs.put e.1 v).has e'.1 := by
    rw [List.filter_filter]
    refine List.filter_congr fun e' _ => ?_
    have hmem : defs.has e'.1 = true → (defs.put e.1 v).has e'.1 = true := fun h =>
      Table.has_iff.mpr (Table.mem_names_put.mpr (.inr (Table.has_iff.mp h)))
    cases h : defs.has e'.1 <;> simp_all
  rw [undefinedTypes, undefinedTypes, hfilter, List.length_filter_lt_length_iff_exists]
  refine ⟨e, List.mem_filter.mpr ⟨he, ?_⟩, ?_⟩
  · rw [Bool.not_eq_true', Bool.eq_false_iff, Ne, Table.has_iff]
    exact hnew
  · simpa using Table.has_iff.mpr (Table.mem_names_put.mpr (.inl rfl))

/-- Collecting the definitions of several types, if each of them can be collected. -/
theorem foldlM_define {depth : Nat} {ys : List String} (hys : ∀ y ∈ ys, y ∈ c.types.names)
    (hdefine : ∀ defs, ∀ y ∈ c.types.names, c.undefinedTypes defs < depth →
      ∃ defs', c.define depth defs y = .ok defs' ∧ Defined c defs [y] defs')
    (hdepth : c.undefinedTypes defs < depth) :
    ∃ defs', ys.foldlM (fun defs y => c.define depth defs y) defs = .ok defs' ∧
      Defined c defs ys defs' := by
  induction ys generalizing defs with
  | nil => exact ⟨defs, rfl, .refl c defs⟩
  | cons y ys ih =>
    obtain ⟨mid, hmid, hdefined⟩ := hdefine defs y (hys y List.mem_cons_self) hdepth
    obtain ⟨defs', hdefs', hrest⟩ := ih (fun x hx => hys x (List.mem_cons_of_mem _ hx))
      ((undefinedTypes_le hdefined.names_subset).trans_lt hdepth)
    refine ⟨defs', ?_, hdefined.trans hrest⟩
    rw [List.foldlM_cons]
    exact Outcome.bind_eq_ok.mpr ⟨mid, hmid, hdefs'⟩

/-- **Collecting definitions depth first ends**, with the definitions that are missing. The
induction is on the depth: a type that is entered is not counted among the undefined ones when its
properties are looked at, although its entry is not finished. -/
theorem define_spec (hc : Resolved c.types) (depth : Nat) (defs : Table Value) (fqn : String)
    (hfqn : fqn ∈ c.types.names) (hdepth : c.undefinedTypes defs < depth) :
    ∃ defs', c.define depth defs fqn = .ok defs' ∧ Defined c defs [fqn] defs' := by
  induction depth generalizing defs fqn with
  | zero => exact absurd hdepth (Nat.not_lt_zero _)
  | succ depth ih =>
    by_cases hpresent : fqn ∈ defs.names
    · exact ⟨defs, by rw [define, if_pos (Table.has_iff.mpr hpresent)], .present hpresent⟩
    · obtain ⟨d, hd⟩ := Table.exists_find hfqn
      have hget : c.get fqn = .ok d := get_eq_ok_iff.mpr hd
      have hdefine : c.define (depth + 1) defs fqn =
          if d.isEnum then .ok (defs.put fqn (JsonSchema.definition d))
          else (d.targets.foldlM (fun defs y => c.define depth defs y)
            (defs.put fqn JsonSchema.unfinished)).bind fun defs =>
              .ok (defs.put fqn (JsonSchema.definition d)) := by
        rw [define, if_neg (by rwa [Table.has_iff]), hget]
        rfl
      rw [hdefine]
      by_cases henum : d.isEnum = true
      · rw [if_pos henum]
        exact ⟨_, rfl, .enumeration hd henum hpresent⟩
      · rw [if_neg henum]
        have htargets : ∀ y ∈ d.targets, y ∈ c.types.names := fun y hy =>
          mem_names_of_target hc (mem_of_find_fqn hc hd).1 hy
        have hless : c.undefinedTypes (defs.put fqn JsonSchema.unfinished) < depth := by
          have hput := undefinedTypes_put_lt hfqn hpresent JsonSchema.unfinished
          omega
        obtain ⟨mid, hmid, hdefined⟩ := foldlM_define htargets
          (fun defs y hy hlt => ih defs y hy hlt) hless
        refine ⟨_, by rw [hmid]; rfl, hdefined.finish hd hpresent fun y => ?_⟩
        rw [composes_iff_of_find hd]
        simp [henum]

/-- **The definitions of a type**, collected depth first: one for each type that steps lead to. -/
theorem definitions_spec (hc : Resolved c.types) (hfqn : fqn ∈ c.types.names) :
    ∃ defs, c.definitions fqn = .ok defs ∧ defs.names.Nodup ∧ ∀ x v, (x, v) ∈ defs ↔
      Relation.ReflTransGen c.Composes fqn x ∧
        ∃ d, c.types.find? x = some d ∧ v = JsonSchema.definition d := by
  have hdepth : c.undefinedTypes [] < c.types.length + 1 :=
    Nat.lt_succ_of_le (List.length_filter_le _ _)
  obtain ⟨defs, hdefs, hdefined⟩ := define_spec hc _ [] fqn hfqn hdepth
  have hnodup : defs.names.Nodup := hdefined.nodup List.nodup_nil
  have hmade := fun x hx => hdefined.made x hx List.not_mem_nil
  have hall : ∀ x, Relation.ReflTransGen c.Composes fqn x → x ∈ defs.names := by
    intro x hreach
    induction hreach with
    | refl => exact hdefined.entered fqn (List.mem_singleton_self _)
    | tail _ hstep ih =>
      obtain ⟨_, _, _, hparts, _⟩ := hmade _ ih
      exact hparts _ hstep
  refine ⟨defs, hdefs, hnodup, fun x v => ⟨fun hmem => ?_, ?_⟩⟩
  · have hfind := (Table.find_eq_some_iff hnodup).mpr hmem
    obtain ⟨d, hd, hdef, _, r, hr, hreach⟩ := hmade x (Table.mem_names_of_find hfind)
    rw [List.mem_singleton.mp hr] at hreach
    exact ⟨hreach, d, hd, Option.some.inj (hfind.symm.trans hdef)⟩
  · rintro ⟨hreach, d, hd, rfl⟩
    obtain ⟨d', hd', hdef, _⟩ := hmade x (hall x hreach)
    obtain rfl : d = d' := Option.some.inj (hd.symm.trans hd')
    exact Table.mem_of_find hdef

end Catalog

/-! ### References -/

namespace Value

mutual

/-- The references in a schema, at whatever depth: the texts under the key `$ref`. -/
def references : Value → List String
  | .list vs => referencesOfAll vs
  | .object fields => referencesOfFields fields
  | _ => []

def referencesOfAll : List Value → List String
  | [] => []
  | v :: vs => v.references ++ referencesOfAll vs

def referencesOfFields : List (String × Value) → List String
  | [] => []
  | (k, v) :: fields =>
    (if k = "$ref" then v.text?.toList else []) ++ v.references ++ referencesOfFields fields

end

theorem references_texts (ts : List String) : (texts ts).references = [] := by
  have hall : referencesOfAll (ts.map .text) = [] := by
    induction ts with
    | nil => rfl
    | cons t ts ih => simp [referencesOfAll, ih, references]
  rw [texts, references, hall]

/-- Under the names of entries that are objects there are no references, but in them. -/
theorem referencesOfFields_map {α : Type} (name : α → String) (fields : α → List (String × Value))
    (xs : List α) : referencesOfFields (xs.map fun x => (name x, .object (fields x))) =
      xs.flatMap fun x => (Value.object (fields x)).references := by
  induction xs with
  | nil => rfl
  | cons x xs ih =>
    rw [List.map_cons, referencesOfFields, ih, List.flatMap_cons]
    split <;> simp [text?]

end Value

namespace JsonSchema

open Value

/-- The text of a reference to the definition of a type. -/
def referenceText (fqn : String) : String :=
  "#/$defs/" ++ fqn

theorem references_item (p : Property) :
    (Value.object (item p)).references = p.target?.toList.map referenceText := by
  unfold item Property.target? Property.isPrimitive Primitive.isName
  by_cases hrelationship : p.relationship = true
  · simp [hrelationship, references, referencesOfFields]
  · cases hname : Primitive.ofName? p.type with
    | some t => cases t <;> simp [hrelationship, primitive, references, referencesOfFields]
    | none =>
      simp [hrelationship, reference, references, referencesOfFields, text?, referenceText]

/-- **The references in the schema of a property**: the type of its values, if they have parts of
their own. -/
theorem references_property (p : Property) : ∃ fields, property p = .object fields ∧
    (Value.object fields).references = p.target?.toList.map referenceText := by
  have hitem := references_item p
  unfold property
  cases p.optional <;> cases p.array <;> refine ⟨_, rfl, ?_⟩ <;>
    simp [references, referencesOfFields, referencesOfAll] at hitem ⊢ <;> exact hitem

/-- **The references in the definition of a type** are those to the types it is made of. -/
theorem references_definition (d : SchemaType) : ∃ fields, definition d = .object fields ∧
    fields ≠ [] ∧ (Value.object fields).references =
      (if d.isEnum then [] else d.targets).map referenceText := by
  unfold definition
  by_cases henum : d.isEnum = true
  · rw [if_pos henum, if_pos henum]
    exact ⟨_, rfl, by simp, by simp [references, referencesOfFields, references_texts]⟩
  · rw [if_neg henum, if_neg henum]
    refine ⟨_, rfl, by simp, ?_⟩
    choose schema hschema hreferences using references_property
    have hproperties : (d.properties.map fun p => (p.name, property p)) =
        d.properties.map fun p => (p.name, .object (schema p)) :=
      List.map_congr_left fun p _ => by rw [hschema p]
    have htargets : d.targets.map referenceText =
        d.properties.flatMap fun p => (Value.object (schema p)).references := by
      rw [SchemaType.targets, List.filterMap_eq_flatMap_toList, List.map_flatMap]
      exact List.flatMap_congr fun p _ => (hreferences p).symm
    rw [hproperties, htargets, ← referencesOfFields_map Property.name schema]
    simp [references, referencesOfFields, references_texts, classKey]

/-- The references in a schema with definitions of types. -/
theorem references_document (fqn : String) (types : List SchemaType) :
    (document fqn types).references =
      referenceText fqn :: types.flatMap fun d => (definition d).references := by
  choose fields hfields _ using references_definition
  have hdefinitions : (types.map fun d => (d.fqn, definition d)) =
      types.map fun d => (d.fqn, .object (fields d)) :=
    List.map_congr_left fun d _ => by rw [hfields d]
  have hreferences : (types.flatMap fun d => (definition d).references) =
      types.flatMap fun d => (Value.object (fields d)).references :=
    List.flatMap_congr fun d _ => by rw [hfields d]
  rw [hreferences, ← referencesOfFields_map SchemaType.fqn fields, ← hdefinitions]
  simp [document, references, referencesOfFields, reference, text?, referenceText]

end JsonSchema

/-! ### Schemas -/

namespace Catalog

variable {c : Catalog} {fqn : String}

/-- Steps lead to types of the catalog. -/
theorem exists_find_of_composes (hc : Resolved c.types) (hfqn : fqn ∈ c.types.names) {x : String}
    (h : Relation.ReflTransGen c.Composes fqn x) : ∃ d, c.types.find? x = some d ∧ d.fqn = x := by
  obtain ⟨d, hd⟩ : ∃ d, c.types.find? x = some d := by
    rcases h.cases_tail with rfl | ⟨y, _, e, he, _, p, hp, hprimitive, _, rfl⟩
    · exact Table.exists_find hfqn
    · exact Table.exists_find (hc.targets _ (Table.mem_of_find he) p hp hprimitive)
  exact ⟨d, hd, (mem_of_find_fqn hc hd).2⟩

/-- The types whose definitions are in the schema of a type: those that steps lead to, once
each. -/
structure Defines (c : Catalog) (fqn : String) (types : List SchemaType) : Prop where
  nodup : (types.map (·.fqn)).Nodup
  mem_iff : ∀ d, d ∈ types ↔
    c.types.find? d.fqn = some d ∧ Relation.ReflTransGen c.Composes fqn d.fqn

theorem jsonSchema_spec (hc : Resolved c.types) (hfqn : fqn ∈ c.types.names) :
    ∃ types, c.jsonSchema fqn = .ok (JsonSchema.document fqn types) ∧ c.Defines fqn types := by
  obtain ⟨types, htypes, hexplored⟩ := components_spec hc hfqn
  have hsteps : (fun x y => ∃ d, c.types.find? x = some d ∧ y ∈ if d.isEnum then [] else d.targets) =
      c.Composes := by
    funext x y
    exact propext composes_iff.symm
  refine ⟨types, by rw [jsonSchema, htypes]; rfl, nodup_explore hc (by simp) htypes, fun d => ?_⟩
  rw [hexplored.mem_iff hc, hsteps]

section Defines

variable {types : List SchemaType}

/-- The entries of the definitions. -/
theorem Defines.mem_entries_iff (h : c.Defines fqn types) (hc : Resolved c.types)
    (hfqn : fqn ∈ c.types.names) (x : String) (v : Value) :
    (x, v) ∈ (types.map fun d => (d.fqn, JsonSchema.definition d)) ↔
      Relation.ReflTransGen c.Composes fqn x ∧
        ∃ d, c.types.find? x = some d ∧ v = JsonSchema.definition d := by
  rw [List.mem_map]
  constructor
  · rintro ⟨d, hd, heq⟩
    obtain ⟨rfl, rfl⟩ := Prod.mk.inj heq
    obtain ⟨hfind, hreach⟩ := (h.mem_iff d).mp hd
    exact ⟨hreach, d, hfind, rfl⟩
  · rintro ⟨hreach, d, hd, rfl⟩
    obtain ⟨d', hd', rfl⟩ := exists_find_of_composes hc hfqn hreach
    obtain rfl : d = d' := Option.some.inj (hd.symm.trans hd')
    exact ⟨d, (h.mem_iff d).mpr ⟨hd, hreach⟩, rfl⟩

/-- A reference is to the type itself, or to one that a defined type is made of. -/
theorem Defines.reached_of_reference (h : c.Defines fqn types) {ref : String}
    (href : ref ∈ (JsonSchema.document fqn types).references) :
    ∃ x, Relation.ReflTransGen c.Composes fqn x ∧ ref = JsonSchema.referenceText x := by
  rw [JsonSchema.references_document] at href
  rcases List.mem_cons.mp href with rfl | href
  · exact ⟨fqn, .refl, rfl⟩
  · obtain ⟨d, hd, href⟩ := List.mem_flatMap.mp href
    obtain ⟨hfind, hreach⟩ := (h.mem_iff d).mp hd
    obtain ⟨fields, hfields, _, hreferences⟩ := JsonSchema.references_definition d
    rw [hfields, hreferences] at href
    obtain ⟨y, hy, rfl⟩ := List.mem_map.mp href
    exact ⟨y, hreach.tail (composes_iff.mpr ⟨d, hfind, hy⟩), rfl⟩

/-- A reference to a type that is defined finds its definition. -/
theorem Defines.resolve_reference (h : c.Defines fqn types) (hc : c.Reached) {d : SchemaType}
    (hd : c.types.find? d.fqn = some d) (hreach : Relation.ReflTransGen c.Composes fqn d.fqn) :
    JsonSchema.resolve (JsonSchema.document fqn types) (JsonSchema.referenceText d.fqn) =
      some (JsonSchema.definition d) := by
  refine JsonSchema.resolve_reference ((h.mem_iff d).mpr ⟨hd, hreach⟩) (fun d' hmem hsame => ?_)
    (hc.plain hd)
  have hd' := ((h.mem_iff d').mp hmem).1
  rw [hsame, hd] at hd'
  exact (Option.some.inj hd').symm

end Defines

/-- **Schemas are closed.** Every declared type of every catalog that adding files leads to has a
schema, also if types lead back to themselves or to each other. Its definitions are those of
exactly the types that steps along properties lead to, once each, and none is left unfinished.
Every reference in the schema, wherever it stands, leads to one of them. Collecting them depth
first, with unfinished entries on the way, ends with the same definitions. -/
theorem Reached.jsonSchema_closed (hc : c.Reached) (hfqn : c.has fqn = true) :
    ∃ schema defs, c.jsonSchema fqn = .ok schema ∧ schema.get? "$defs" = some (.object defs) ∧
      (Table.names defs).Nodup ∧
      (∀ x, x ∈ Table.names defs ↔ Relation.ReflTransGen c.Composes fqn x) ∧
      (∀ x v, (x, v) ∈ defs → v ≠ JsonSchema.unfinished ∧
        ∃ d, c.types.find? x = some d ∧ v = JsonSchema.definition d) ∧
      (∀ ref ∈ schema.references, ∃ x v, (x, v) ∈ defs ∧ ref = JsonSchema.referenceText x ∧
        JsonSchema.resolve schema ref = some v) ∧
      ∃ collected, c.definitions fqn = .ok collected ∧ collected.Perm defs := by
  have hresolved := hc.sound.types
  have hnames := Table.has_iff.mp hfqn
  obtain ⟨types, hschema, hdefines⟩ := jsonSchema_spec hresolved hnames
  obtain ⟨collected, hcollected, hnodup', hentries⟩ := definitions_spec hresolved hnames
  have hdefs := hdefines.mem_entries_iff hresolved hnames
  have hnodup : (Table.names (types.map fun d => (d.fqn, JsonSchema.definition d))).Nodup := by
    rw [Table.names, List.map_map]
    exact hdefines.nodup
  refine ⟨_, _, hschema, rfl, hnodup, fun x => ⟨fun hx => ?_, fun hreach => ?_⟩,
    fun x v hmem => ?_, fun ref href => ?_, collected, hcollected, ?_⟩
  · obtain ⟨⟨_, v⟩, hmem, rfl⟩ := List.mem_map.mp hx
    exact ((hdefs _ v).mp hmem).1
  · obtain ⟨d, hd, -⟩ := exists_find_of_composes hresolved hnames hreach
    exact List.mem_map.mpr ⟨_, (hdefs x _).mpr ⟨hreach, d, hd, rfl⟩, rfl⟩
  · obtain ⟨_, d, hd, rfl⟩ := (hdefs x v).mp hmem
    obtain ⟨fields, hfields, hne, _⟩ := JsonSchema.references_definition d
    refine ⟨fun hunfinished => hne ?_, d, hd, rfl⟩
    rw [hfields] at hunfinished
    exact Value.object.inj hunfinished
  · obtain ⟨x, hreach, rfl⟩ := hdefines.reached_of_reference href
    obtain ⟨d, hd, rfl⟩ := exists_find_of_composes hresolved hnames hreach
    exact ⟨_, _, (hdefs _ _).mpr ⟨hreach, d, hd, rfl⟩, rfl, hdefines.resolve_reference hc hd hreach⟩
  · refine (List.perm_ext_iff_of_nodup hnodup'.of_map hnodup.of_map).mpr fun entry => ?_
    obtain ⟨x, v⟩ := entry
    rw [hentries, hdefs]

end Catalog

namespace Grove

/-- **The schema of trees**, which have trees for branches, defines trees and what they can be. -/
theorem jsonSchema_tree : catalog.Reached ∧ catalog.has tree.fqn = true ∧
    Relation.TransGen catalog.Composes tree.fqn tree.fqn ∧
    ∃ schema defs, catalog.jsonSchema tree.fqn = .ok schema ∧
      schema.get? "$defs" = some (.object defs) ∧ tree.fqn ∈ Table.names defs ∧
      kind.fqn ∈ Table.names defs ∧ (tree.fqn, JsonSchema.unfinished) ∉ defs := by
  have hc : catalog.Reached := .add .system _ _
  have hhas : catalog.has tree.fqn = true :=
    Table.has_iff.mpr (Table.mem_names_of_find find_types.2)
  have hself : catalog.Composes tree.fqn tree.fqn :=
    ⟨tree, find_types.2, rfl, _, .tail _ (.tail _ (.head _)), rfl, rfl, rfl⟩
  have hkind : catalog.Composes tree.fqn kind.fqn :=
    ⟨tree, find_types.2, rfl, _, .head _, rfl, rfl, rfl⟩
  obtain ⟨schema, defs, hschema, hdefs, _, hnames, hdone, _⟩ := hc.jsonSchema_closed hhas
  exact ⟨hc, hhas, .single hself, schema, defs, hschema, hdefs, (hnames _).mpr .refl,
    (hnames _).mpr (.single hkind), fun hmem => (hdone _ _ hmem).1 rfl⟩

end Grove

end Covenant
