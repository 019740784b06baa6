import Covenant.Proofs.Decimal.Shortest
import Covenant.Proofs.Schema.Violations

/-!
Instances of types.

* `Catalog.ConformsTo`: data that conforms to a type, as the least relation that is closed under the
  forms of conforming.
* `Catalog.Layer`: what a type asks of data, in terms of the data that declared types have.
  `Catalog.layer_unique`: it determines the data of each type.
* `Catalog.typeViolations_eq_nil_iff`: checking finds nothing exactly in data that conforms.
-/

namespace Covenant

/-! ### Primitive types -/

/-- **A double without fraction**: it is finite, and its size is a natural number. -/
def Decimal.NoFraction (x : Float) : Prop :=
  x.isFinite = true ∧ ∃ n : ℕ, (Binary.ofFloat x).size = n

theorem Decimal.isWhole_iff (x : Float) : isWhole x = true ↔ NoFraction x := by
  have hpos : 0 < (Binary.ofFloat x).ratio.2 := scaleTwo_pos Nat.one_pos _
  have hsize : quotient (Binary.ofFloat x).ratio = (Binary.ofFloat x).size := by
    rw [Binary.ratio, quotient_scaleTwo, quotient, Binary.size, Nat.cast_one, div_one]
  have hwhole : (Binary.ofFloat x).isWhole = true ↔ ∃ n : ℕ, (Binary.ofFloat x).size = n := by
    rw [Binary.isWhole, beq_iff_eq, ← Nat.dvd_iff_mod_eq_zero, ← hsize, quotient]
    constructor
    · rintro ⟨n, hn⟩
      refine ⟨n, ?_⟩
      rw [hn, Nat.cast_mul, mul_div_cancel_left₀ _ (by positivity)]
    · rintro ⟨n, hn⟩
      rw [div_eq_iff (by positivity), mul_comm] at hn
      exact ⟨n, mod_cast hn⟩
  rw [isWhole, Bool.and_eq_true, hwhole, NoFraction]

namespace Value

/-- A number, whether it is stored as a whole number or as a double. -/
inductive IsNumber : Value → Prop where
  | int (n : Int) : IsNumber (.int n)
  | double (x : Float) : IsNumber (.double x)

/-- A number without fraction, however it is stored. -/
inductive IsWholeNumber : Value → Prop where
  | int (n : Int) : IsWholeNumber (.int n)
  | double {x : Float} (h : Decimal.NoFraction x) : IsWholeNumber (.double x)

end Value

/-- **The values of a primitive type**: texts, truth values, numbers without fraction, or numbers. -/
def Primitive.Takes : Primitive → Value → Prop
  | .string, v | .dateTime, v => ∃ t, v = .text t
  | .boolean, v => ∃ b, v = .bool b
  | .integer, v | .long, v => v.IsWholeNumber
  | .double, v => v.IsNumber

theorem Primitive.admits_iff {t : Primitive} {v : Value} : t.admits v = true ↔ t.Takes v := by
  have hwhole : (∃ n, v = .int n) ∨ (∃ x, v = .double x ∧ Decimal.isWhole x = true) ↔
      v.IsWholeNumber := by
    constructor
    · rintro (⟨n, rfl⟩ | ⟨x, rfl, hx⟩)
      · exact .int n
      · exact .double ((Decimal.isWhole_iff x).mp hx)
    · rintro (⟨n⟩ | ⟨hx⟩)
      · exact .inl ⟨n, rfl⟩
      · exact .inr ⟨_, rfl, (Decimal.isWhole_iff _).mpr hx⟩
  have hnumber : (∃ n, v = .int n) ∨ (∃ x, v = .double x) ↔ v.IsNumber := by
    constructor
    · rintro (⟨n, rfl⟩ | ⟨x, rfl⟩)
      · exact .int n
      · exact .double x
    · rintro (⟨n⟩ | ⟨x⟩)
      · exact .inl ⟨n, rfl⟩
      · exact .inr ⟨x, rfl⟩
  cases t <;> simp only [Takes, ← hwhole, ← hnumber] <;> cases v <;> simp [admits]

namespace Catalog

variable {c : Catalog}

/-! ### Conforming -/

mutual

/-- **Data that conforms to a type**: a text that the type lists, if it is an enumeration; otherwise
an object that names the type under `$class` and has, besides it, the declared properties with values
that conform, all of those that are required. -/
inductive ConformsTo (c : Catalog) : String → Value → Prop where
  | enumeration {d : SchemaType} {t : String} (hd : c.types.find? d.fqn = some d)
      (henum : d.isEnum = true) (ht : t ∈ d.values) : ConformsTo c d.fqn (.text t)
  | object {d : SchemaType} {fields : List (String × Value)} (hd : c.types.find? d.fqn = some d)
      (henum : d.isEnum = false) (hclass : Table.find? fields classKey = some (.text d.fqn))
      (hkeys : ∀ n ∈ Table.names fields, n = classKey ∨ n ∈ d.properties.map Property.name)
      (hrequired : ∀ p ∈ d.properties, p.optional = false → p.name ∈ Table.names fields)
      (hvalues : ∀ p ∈ d.properties, ∀ v, Table.find? fields p.name = some v →
        PropertyConforms c p v) : ConformsTo c d.fqn (.object fields)

/-- **A value that conforms to a property**: an item, or a list of items for an array; for an
optional property also null. -/
inductive PropertyConforms (c : Catalog) : Property → Value → Prop where
  | null {p : Property} (hoptional : p.optional = true) : PropertyConforms c p .null
  | single {p : Property} {v : Value} (harray : p.array = false) (hv : ItemConforms c p v) :
      PropertyConforms c p v
  | array {p : Property} {vs : List Value} (harray : p.array = true)
      (hvs : ∀ v ∈ vs, ItemConforms c p v) : PropertyConforms c p (.list vs)

/-- **An item that conforms to a property**: a text for a relationship, and otherwise a value of the
primitive type or data that conforms to the declared type. -/
inductive ItemConforms (c : Catalog) : Property → Value → Prop where
  | relationship {p : Property} {t : String} (hp : p.relationship = true) :
      ItemConforms c p (.text t)
  | primitive {p : Property} {t : Primitive} {v : Value} (hp : p.relationship = false)
      (ht : Primitive.ofName? p.type = some t) (hv : t.Takes v) : ItemConforms c p v
  | declared {p : Property} {v : Value} (hp : p.relationship = false)
      (ht : Primitive.ofName? p.type = none) (hv : ConformsTo c p.type v) : ItemConforms c p v

end

/-! ### One layer -/

/-- An item of a property, if `R` tells the data of declared types. -/
def ItemLayer (R : String → Value → Prop) (p : Property) (v : Value) : Prop :=
  if p.relationship then ∃ t, v = .text t
  else
    match Primitive.ofName? p.type with
    | some t => t.Takes v
    | none => R p.type v

/-- A value of a property, if `R` tells the data of declared types. -/
def PropertyLayer (R : String → Value → Prop) (p : Property) (v : Value) : Prop :=
  (p.optional = true ∧ v = .null) ∨
    if p.array then ∃ vs, v = .list vs ∧ ∀ w ∈ vs, ItemLayer R p w else ItemLayer R p v

/-- The entries of an object of a type, if `R` tells the data of declared types. -/
structure ObjectLayer (R : String → Value → Prop) (d : SchemaType) (fields : List (String × Value)) :
    Prop where
  type : Table.find? fields classKey = some (.text d.fqn)
  keys : ∀ n ∈ Table.names fields, n = classKey ∨ n ∈ d.properties.map Property.name
  required : ∀ p ∈ d.properties, p.optional = false → p.name ∈ Table.names fields
  values : ∀ p ∈ d.properties, ∀ v, Table.find? fields p.name = some v → PropertyLayer R p v

/-- **What a type asks of data**, if `R` tells the data of declared types. -/
def Layer (R : String → Value → Prop) (d : SchemaType) (v : Value) : Prop :=
  if d.isEnum then ∃ t ∈ d.values, v = .text t
  else ∃ fields, v = .object fields ∧ ObjectLayer R d fields

section Unique

variable {R Q : String → Value → Prop} {p : Property} {d : SchemaType} {v : Value}

theorem itemLayer_congr (h : ∀ y, p.target? = some y → (R y v ↔ Q y v)) :
    ItemLayer R p v ↔ ItemLayer Q p v := by
  unfold ItemLayer
  by_cases hrelationship : p.relationship = true
  · rw [if_pos hrelationship, if_pos hrelationship]
  · rw [if_neg hrelationship, if_neg hrelationship]
    cases hname : Primitive.ofName? p.type with
    | some t => exact Iff.rfl
    | none =>
      refine h p.type ?_
      simp [Property.target?, Property.isPrimitive, Primitive.isName, hname, hrelationship]

theorem propertyLayer_congr
    (h : ∀ y, p.target? = some y → ∀ w, sizeOf w ≤ sizeOf v → (R y w ↔ Q y w)) :
    PropertyLayer R p v ↔ PropertyLayer Q p v := by
  unfold PropertyLayer
  refine or_congr_right ?_
  by_cases harray : p.array = true
  · rw [if_pos harray, if_pos harray]
    refine exists_congr fun vs => and_congr_right fun hvs => forall₂_congr fun w hw =>
      itemLayer_congr fun y hy => h y hy w ?_
    have hsize := List.sizeOf_lt_of_mem hw
    rw [hvs, Value.list.sizeOf_spec]
    omega
  · rw [if_neg harray, if_neg harray]
    exact itemLayer_congr fun y hy => h y hy v le_rfl

/-- **What a type asks of data** depends on the parts of the data only. -/
theorem layer_congr (h : d.isEnum = false → ∀ y ∈ d.targets, ∀ w, sizeOf w < sizeOf v →
    (R y w ↔ Q y w)) : Layer R d v ↔ Layer Q d v := by
  unfold Layer
  by_cases henum : d.isEnum = true
  · rw [if_pos henum, if_pos henum]
  rw [if_neg henum, if_neg henum]
  refine exists_congr fun fields => and_congr_right fun hfields => ?_
  have hvalue : ∀ p ∈ d.properties, ∀ w, Table.find? fields p.name = some w →
      (PropertyLayer R p w ↔ PropertyLayer Q p w) := by
    intro p hp w hw
    refine propertyLayer_congr fun y hy u hu => h (by simpa using henum) y
      (List.mem_filterMap.mpr ⟨p, hp, hy⟩) u ?_
    have hsize := List.sizeOf_lt_of_mem (Table.mem_of_find hw)
    rw [Prod.mk.sizeOf_spec] at hsize
    rw [hfields, Value.object.sizeOf_spec]
    omega
  exact ⟨fun ⟨htype, hkeys, hrequired, hvalues⟩ => ⟨htype, hkeys, hrequired,
      fun p hp w hw => (hvalue p hp w hw).mp (hvalues p hp w hw)⟩,
    fun ⟨htype, hkeys, hrequired, hvalues⟩ => ⟨htype, hkeys, hrequired,
      fun p hp w hw => (hvalue p hp w hw).mpr (hvalues p hp w hw)⟩⟩

/-- Types with which the types of their properties come. -/
def TargetClosed (S : SchemaType → Prop) : Prop :=
  ∀ d, S d → d.isEnum = false → ∀ y ∈ d.targets, ∃ d', S d' ∧ d'.fqn = y

/-- **The layers determine the data of a type.** The induction is on the size of the data. -/
theorem layer_unique {S : SchemaType → Prop} (hS : TargetClosed S)
    (hR : ∀ d, S d → ∀ v, R d.fqn v ↔ Layer R d v) (hQ : ∀ d, S d → ∀ v, Q d.fqn v ↔ Layer Q d v)
    (hd : S d) (v : Value) : R d.fqn v ↔ Q d.fqn v := by
  induction hsize : sizeOf v using Nat.strong_induction_on generalizing d v with
  | _ n ih =>
    subst hsize
    rw [hR d hd, hQ d hd]
    refine layer_congr fun henum y hy w hw => ?_
    obtain ⟨d', hd', rfl⟩ := hS d hd henum y hy
    exact ih _ hw hd' w rfl

end Unique

/-! ### Conforming and checking -/

theorem itemConforms_iff {p : Property} {v : Value} :
    ItemConforms c p v ↔ ItemLayer c.ConformsTo p v := by
  unfold ItemLayer
  constructor
  · rintro (hp | ⟨hp, ht, hv⟩ | ⟨hp, ht, hv⟩)
    · rw [if_pos hp]
      exact ⟨_, rfl⟩
    · rwa [if_neg (by simp [hp]), ht]
    · rwa [if_neg (by simp [hp]), ht]
  · intro h
    split at h
    · obtain ⟨t, rfl⟩ := h
      exact .relationship ‹_›
    · rename_i hp
      have hp : p.relationship = false := by simpa using hp
      cases ht : Primitive.ofName? p.type with
      | some t =>
        rw [ht] at h
        exact .primitive hp ht h
      | none =>
        rw [ht] at h
        exact .declared hp ht h

theorem propertyConforms_iff {p : Property} {v : Value} :
    PropertyConforms c p v ↔ PropertyLayer c.ConformsTo p v := by
  simp only [PropertyLayer, ← itemConforms_iff]
  constructor
  · rintro (hoptional | ⟨harray, hv⟩ | ⟨harray, hvs⟩)
    · exact .inl ⟨hoptional, rfl⟩
    · exact .inr (by rwa [if_neg (by simp [harray])])
    · exact .inr (by rw [if_pos harray]; exact ⟨_, rfl, hvs⟩)
  · rintro (⟨hoptional, rfl⟩ | h)
    · exact .null hoptional
    · split at h
      · obtain ⟨vs, rfl, hvs⟩ := h
        exact .array ‹_› hvs
      · exact .single (by simpa using ‹¬p.array = true›) h

/-- **Conforming is made of layers.** -/
theorem conformsTo_iff {d : SchemaType} (hd : c.types.find? d.fqn = some d) {v : Value} :
    c.ConformsTo d.fqn v ↔ Layer c.ConformsTo d v := by
  unfold Layer
  constructor
  · intro h
    generalize hfqn : d.fqn = fqn at h
    cases h with
    | @enumeration d' t hd' henum ht =>
      rw [← hfqn, hd] at hd'
      cases hd'
      rw [if_pos henum]
      exact ⟨t, ht, rfl⟩
    | @object d' fields hd' henum hclass hkeys hrequired hvalues =>
      rw [← hfqn, hd] at hd'
      cases hd'
      rw [if_neg (by simp [henum])]
      exact ⟨fields, rfl, hclass, hkeys, hrequired,
        fun p hp w hw => propertyConforms_iff.mp (hvalues p hp w hw)⟩
  · intro h
    split at h
    · obtain ⟨t, ht, rfl⟩ := h
      exact .enumeration hd ‹_› ht
    · obtain ⟨fields, rfl, h⟩ := h
      exact .object hd (by simpa using ‹¬d.isEnum = true›) h.type h.keys h.required
        fun p hp w hw => propertyConforms_iff.mpr (h.values p hp w hw)

/-- Data of declared types in which checking finds nothing. -/
def Faultless (c : Catalog) (fqn : String) (v : Value) : Prop :=
  c.typeViolations v fqn = []

theorem fitsOne_iff_itemLayer {p : Property} {v : Value} :
    c.FitsOne p v ↔ ItemLayer c.Faultless p v := by
  unfold FitsOne ItemLayer Inspection.valueViolations
  split
  · rw [Primitive.violations_eq_nil_iff, Primitive.admits_iff]
    rfl
  · cases Primitive.ofName? p.type with
    | some t => exact Primitive.violations_eq_nil_iff.trans Primitive.admits_iff
    | none => rfl

theorem fits_iff_propertyLayer {p : Property} {v : Value} :
    c.Fits p v ↔ PropertyLayer c.Faultless p v := by
  simp only [Fits, PropertyLayer, fitsOne_iff_itemLayer, Value.isNull_iff]

/-- **Checking is made of layers.** -/
theorem faultless_iff {d : SchemaType} (hd : c.types.find? d.fqn = some d) {v : Value} :
    c.Faultless d.fqn v ↔ Layer c.Faultless d v := by
  unfold Layer
  cases henum : d.isEnum with
  | true => exact typeViolations_enum_iff hd henum
  | false =>
    refine (typeViolations_object_iff hd henum).trans (exists_congr fun fields =>
      and_congr_right fun _ => ⟨fun h => ⟨h.type, h.declared, h.required, fun p hp w hw =>
        fits_iff_propertyLayer.mp (h.property p hp w hw)⟩, fun h => ⟨h.type, fun p hp w hw =>
        fits_iff_propertyLayer.mpr (h.values p hp w hw), h.required, h.keys⟩⟩)

/-- With the types of a resolved catalog come the types of their properties. -/
theorem targetClosed (hc : Resolved c.types) :
    TargetClosed fun d => c.types.find? d.fqn = some d := by
  intro d hd _ y hy
  obtain ⟨d', hd'⟩ := Table.exists_find
    (mem_names_of_target hc ⟨_, Table.mem_of_find hd, rfl⟩ hy)
  obtain ⟨hmem, rfl⟩ := mem_of_find_fqn hc hd'
  exact ⟨d', find_of_mem hc hmem, rfl⟩

/-- **Checking finds nothing** exactly in data that conforms. -/
theorem typeViolations_eq_nil_iff (hc : Resolved c.types) {d : SchemaType}
    (hd : c.types.find? d.fqn = some d) (v : Value) :
    c.typeViolations v d.fqn = [] ↔ c.ConformsTo d.fqn v :=
  layer_unique (targetClosed hc) (fun _ h _ => faultless_iff h) (fun _ h _ => conformsTo_iff h) hd v

end Catalog

end Covenant
