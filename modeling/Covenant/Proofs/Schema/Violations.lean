import Covenant.Proofs.Schema.Explore
import Covenant.Schema.Validation

/-!
Data without violations.

* `Catalog.Fits`: a value is one that a property may have; `Catalog.Conforms`: the entries of
  an object are those of a type.
* `Catalog.fits_iff`, `Catalog.conforms_iff`: this is what checking asks for, whatever the
  violations are that it tells.
* `Catalog.checkData_eq_ok_iff`: data is accepted if and only if it is without violations, for
  every type of a catalog whose types are resolved.
-/

namespace Covenant

/-! ### Single places -/

theorem Value.isNull_iff {v : Value} : v.isNull = true ↔ v = .null := by
  cases v <;> simp [isNull]

theorem Primitive.violations_eq_nil_iff {t : Primitive} {v : Value} :
    t.violations v = [] ↔ t.admits v = true := by
  unfold violations
  split <;> simp_all

namespace SchemaType

variable {d : SchemaType}

theorem enumViolations_eq_nil_iff {v : Value} :
    d.enumViolations v = [] ↔ ∃ t ∈ d.values, v = .text t := by
  unfold enumViolations
  split
  · split <;> simp_all
  · rename_i hnone
    simp only [List.cons_ne_nil, false_iff]
    rintro ⟨t, _, rfl⟩
    exact hnone t rfl

theorem classViolations_eq_nil_iff {v : Value} : d.classViolations v = [] ↔ v = .text d.fqn := by
  unfold classViolations
  split
  · split <;> simp_all
  · rename_i hnone
    simp only [List.cons_ne_nil, false_iff]
    rintro rfl
    exact hnone _ rfl

/-- The names that an object has to have and may have. -/
theorem nameViolations_eq_nil_iff {names : List String} : d.nameViolations names = [] ↔
    classKey ∈ names ∧ (∀ p ∈ d.properties, p.optional = false → p.name ∈ names) ∧
      ∀ n ∈ names, n = classKey ∨ n ∈ d.properties.map Property.name := by
  have hsorted : ∀ xs : List String, (xs.mergeSort fun a b => decide (a ≤ b)).isEmpty = xs.isEmpty :=
    fun xs => by
      rw [Bool.eq_iff_iff, List.isEmpty_iff_length_eq_zero, List.isEmpty_iff_length_eq_zero,
        List.length_mergeSort]
  unfold nameViolations
  simp only [List.append_eq_nil_iff, List.map_eq_nil_iff, ite_eq_left_iff, List.cons_ne_nil,
    imp_false, not_not, hsorted, List.isEmpty_iff, List.filter_eq_nil_iff, List.forall_mem_cons,
    List.forall_mem_map, List.mem_filter]
  simp only [List.contains_eq_mem, Bool.not_eq_true', decide_eq_false_iff_not, not_not, and_imp,
    List.mem_cons, and_assoc]

end SchemaType

namespace Catalog

variable {c : Catalog}

/-! ### Properties -/

/-- **One value that a property may have**: a text that refers to something, or a value of the
property's type. -/
def FitsOne (c : Catalog) (p : Property) (v : Value) : Prop :=
  Inspection.valueViolations p v (c.typeViolations v) = []

/-- **A value that a property may have**: null for an optional property, a list of such values
for an array, and such a value otherwise. -/
def Fits (c : Catalog) (p : Property) (v : Value) : Prop :=
  (p.optional = true ∧ v.isNull = true) ∨
    if p.array then ∃ vs, v = .list vs ∧ ∀ w ∈ vs, c.FitsOne p w else c.FitsOne p v

/-- A value with what checking finds out about it. -/
def inspect (c : Catalog) (v : Value) : Inspection :=
  ⟨v, c.typeViolations v, c.inspectItems v⟩

theorem inspectAll_eq (vs : List Value) :
    c.inspectAll vs = vs.map fun v => (v, c.typeViolations v) := by
  induction vs with
  | nil => rw [inspectAll]; rfl
  | cons v vs ih => rw [inspectAll, ih]; rfl

/-- Nothing is found among numbered things if and only if nothing is found in any. -/
theorem flatMap_zipIdx_eq_nil_iff {α β : Type} {f : α × Nat → List β} {P : α → Prop}
    (h : ∀ a i, f (a, i) = [] ↔ P a) {as : List α} {start : Nat} :
    (as.zipIdx start).flatMap f = [] ↔ ∀ a ∈ as, P a := by
  induction as generalizing start with
  | nil => simp
  | cons a as ih =>
    rw [List.zipIdx_cons, List.flatMap_cons, List.append_eq_nil_iff, h, ih, List.forall_mem_cons]

theorem requiredViolations_eq_nil_iff {p : Property} {v : Value} :
    (c.inspect v).requiredViolations p = [] ↔
      if p.array then ∃ vs, v = .list vs ∧ ∀ w ∈ vs, c.FitsOne p w else c.FitsOne p v := by
  unfold Inspection.requiredViolations
  by_cases harray : p.array = true
  · rw [if_pos harray, if_pos harray]
    cases v with
    | list vs =>
      simp only [inspect, inspectItems, inspectAll_eq, Value.list.injEq, exists_eq_left']
      rw [flatMap_zipIdx_eq_nil_iff (P := fun e => Inspection.valueViolations p e.1 e.2 = [])
        fun e i => List.map_eq_nil_iff, List.forall_mem_map]
      rfl
    | _ => simp [inspect]
  · rw [if_neg harray, if_neg harray]
    rfl

/-- **Checking a property** asks for a value that it may have. -/
theorem fits_iff {p : Property} {v : Value} :
    (c.inspect v).propertyViolations p = [] ↔ c.Fits p v := by
  unfold Inspection.propertyViolations Fits
  rw [← requiredViolations_eq_nil_iff]
  by_cases hoptional : p.optional = true
  · simp only [hoptional, if_true, true_and]
    by_cases hnull : v.isNull = true
    · simp [inspect, hnull]
    · simp [inspect, hnull]
  · simp [hoptional]

/-! ### Objects -/

/-- **The entries of an object are those of a type**: the name of the type, every required
property, and nothing but values that the properties may have. -/
structure Conforms (c : Catalog) (d : SchemaType) (fields : List (String × Value)) : Prop where
  type : Table.find? fields classKey = some (.text d.fqn)
  property : ∀ p ∈ d.properties, ∀ v, Table.find? fields p.name = some v → c.Fits p v
  required : ∀ p ∈ d.properties, p.optional = false → p.name ∈ Table.names fields
  declared : ∀ n ∈ Table.names fields, n = classKey ∨ n ∈ d.properties.map Property.name

theorem find_inspectEntries (fields : List (String × Value)) (key : String) :
    (c.inspectEntries fields).find? key = (Table.find? fields key).map c.inspect := by
  induction fields with
  | nil => rw [inspectEntries]; rfl
  | cons e fields ih =>
    obtain ⟨k, v⟩ := e
    rw [inspectEntries, Table.find?, List.lookup, Table.find?, List.lookup]
    split
    · rfl
    · exact ih

theorem names_inspectEntries (fields : List (String × Value)) :
    (c.inspectEntries fields).names = Table.names fields := by
  induction fields with
  | nil => rw [inspectEntries]; rfl
  | cons e fields ih =>
    rw [inspectEntries, Table.names, List.map_cons, Table.names, List.map_cons]
    exact congrArg _ ih

/-- **Checking an object** asks for the entries of its type. -/
theorem conforms_iff {d : SchemaType} {fields : List (String × Value)} :
    d.objectViolations (c.inspectEntries fields) = [] ↔ c.Conforms d fields := by
  have hclass : (((c.inspectEntries fields).find? classKey).map fun i =>
      d.classViolations i.value).getD [] = [] ∧ classKey ∈ Table.names fields ↔
      Table.find? fields classKey = some (.text d.fqn) := by
    rw [find_inspectEntries]
    cases hfind : Table.find? fields classKey with
    | none =>
      have hnone := Table.find_eq_none_iff.mp hfind
      simp [hnone]
    | some v =>
      have hmem := Table.mem_names_of_find hfind
      simp [hmem, inspect, SchemaType.classViolations_eq_nil_iff]
  unfold SchemaType.objectViolations
  rw [List.append_eq_nil_iff, List.append_eq_nil_iff, List.flatMap_eq_nil_iff,
    SchemaType.nameViolations_eq_nil_iff, names_inspectEntries]
  constructor
  · rintro ⟨⟨hkind, hproperties⟩, hkey, hrequired, hdeclared⟩
    refine ⟨hclass.mp ⟨hkind, hkey⟩, fun p hp v hv => ?_, hrequired, hdeclared⟩
    have hnone := hproperties p hp
    rw [find_inspectEntries, hv] at hnone
    exact fits_iff.mp (List.map_eq_nil_iff.mp hnone)
  · intro h
    obtain ⟨hkind, hkey⟩ := hclass.mpr h.type
    refine ⟨⟨hkind, fun p hp => ?_⟩, hkey, h.required, h.declared⟩
    rw [find_inspectEntries]
    cases hfind : Table.find? fields p.name with
    | none => rfl
    | some v => exact List.map_eq_nil_iff.mpr (fits_iff.mpr (h.property p hp v hfind))

/-! ### Types -/

/-- What checking asks of a value of a declared type. -/
theorem typeViolations_eq (v : Value) {d : SchemaType} (hd : c.types.find? d.fqn = some d) :
    c.typeViolations v d.fqn = if d.isEnum then d.enumViolations v else
      match v with
      | .object fields => d.objectViolations (c.inspectEntries fields)
      | v => [⟨[], .kind v "object"⟩] := by
  cases v <;> rw [typeViolations] <;> simp [violationsBy, hd, Value.isObject]

/-- **A value of an enumeration** is one of its texts. -/
theorem typeViolations_enum_iff {d : SchemaType} (hd : c.types.find? d.fqn = some d)
    (henum : d.isEnum = true) {v : Value} :
    c.typeViolations v d.fqn = [] ↔ ∃ t ∈ d.values, v = .text t := by
  rw [typeViolations_eq v hd, if_pos henum, SchemaType.enumViolations_eq_nil_iff]

/-- **A value of any other type** is an object with its entries. -/
theorem typeViolations_object_iff {d : SchemaType} (hd : c.types.find? d.fqn = some d)
    (henum : d.isEnum = false) {v : Value} :
    c.typeViolations v d.fqn = [] ↔ ∃ fields, v = .object fields ∧ c.Conforms d fields := by
  rw [typeViolations_eq v hd, if_neg (by simp [henum])]
  cases v with
  | object fields => simp [conforms_iff]
  | _ => simp

/-! ### Whole data -/

/-- **The types that instances of a type are made of** are found. -/
theorem components_spec (hc : Resolved c.types) {root : String} (hroot : root ∈ c.types.names) :
    ∃ types, c.components root = .ok types ∧
      Explored c (fun d => if d.isEnum then [] else d.targets) [] [root] types := by
  have hnames : ∀ d, (∃ e ∈ c.types, e.2 = d) →
      ∀ y ∈ if d.isEnum then [] else d.targets, y ∈ c.types.names := by
    intro d hd y hy
    split at hy
    · cases hy
    · exact mem_names_of_target hc hd hy
  have hlength : ∀ d : SchemaType, (if d.isEnum then [] else d.targets).length ≤
      d.properties.length + c.types.length := by
    intro d
    have htargets : d.targets.length ≤ d.properties.length := List.length_filterMap_le _ _
    split
    · simp
    · omega
  exact exists_explored hc (fun _ _ => rfl) hnames hlength hroot

/-- **Validation has an answer**, which is without messages if and only if the data is without
violations. -/
theorem validate_spec (hc : Resolved c.types) {d : SchemaType}
    (hd : c.types.find? d.fqn = some d) (v : Value) :
    ∃ messages, c.validate v (some d.fqn) = .ok messages ∧
      (messages = [] ↔ c.typeViolations v d.fqn = []) := by
  obtain ⟨types, htypes, -⟩ := components_spec hc (Table.mem_names_of_find hd)
  refine ⟨(Violation.sort (c.typeViolations v d.fqn)).map Violation.message, ?_, ?_⟩
  · rw [validate, violations, htypes]
    rfl
  · rw [List.map_eq_nil_iff, ← List.length_eq_zero_iff, Violation.sort, List.length_mergeSort,
      List.length_eq_zero_iff]

theorem accept_eq_ok_iff {v : Value} {type : Option String} {found : List String} :
    accept v type found = .ok () ↔ found = [] := by
  unfold accept
  split
  · rename_i hempty
    exact iff_of_true rfl (List.isEmpty_iff.mp hempty)
  · rename_i hsome
    exact iff_of_false (fun h => by cases h) fun h => hsome (List.isEmpty_iff.mpr h)

/-- **Data is accepted if and only if it is without violations.** -/
theorem checkData_eq_ok_iff (hc : Resolved c.types) {d : SchemaType}
    (hd : c.types.find? d.fqn = some d) {v : Value} :
    c.checkData v (some d.fqn) = .ok () ↔ c.typeViolations v d.fqn = [] := by
  obtain ⟨messages, hmessages, hnone⟩ := validate_spec hc hd v
  rw [← hnone, checkData, hmessages]
  change accept v (some d.fqn) messages = .ok () ↔ _
  exact accept_eq_ok_iff

end Catalog

end Covenant
