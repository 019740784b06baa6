import Covenant.Proofs.Schema.Instances
import Covenant.Proofs.Schema.Writable

/-!
What is written for data that conforms.

* `Catalog.Suits`: the values of a primitive type, and those that conform to a declared one.
* `Catalog.exists_writeAs`: they are written, if neither doubles nor dates nor amounts of money are
  in them.
* `Catalog.textAs`, `Catalog.textOf`: what is written for a value as a type, and for a value of a
  property.
* `Catalog.textAs_object`: the text of an object is that of its properties.
-/

namespace Covenant

namespace Decimal

/-- A double without fraction is a whole number. -/
theorem NoFraction.exists_whole {x : Float} (h : NoFraction x) : ∃ n, whole? x = some n := by
  rw [whole?, if_pos h.1]
  exact ⟨_, rfl⟩

end Decimal

theorem Value.IsWholeNumber.exists_toInt {v : Value} (h : v.IsWholeNumber) :
    ∃ n, v.toInt? = some n := by
  cases h with
  | int n => exact ⟨n, rfl⟩
  | double h => exact h.exists_whole

namespace Catalog

variable {c : Catalog} {s : Settings} {p : Property} {T : String} {d : SchemaType} {v w : Value}

/-! ### Values that suit a type -/

/-- A value that a type takes: one of a primitive type, or one that conforms to a declared type. -/
def Suits (c : Catalog) (T : String) (v : Value) : Prop :=
  match Primitive.ofName? T with
  | some t => t.Takes v
  | none => c.ConformsTo T v

theorem suits_primitive_iff {t : Primitive} (ht : Primitive.ofName? T = some t) :
    c.Suits T v ↔ t.Takes v := by
  rw [Suits, ht]

theorem suits_declared_iff (hc : c.Built) (hd : c.types.find? d.fqn = some d) :
    c.Suits d.fqn v ↔ Layer c.ConformsTo d v := by
  rw [Suits, hc.ofName_eq_none (Table.mem_names_of_find hd)]
  exact conformsTo_iff hd

/-- The values of an enumeration are its texts. -/
theorem exists_of_enum (hc : c.Built) (hd : c.types.find? d.fqn = some d) (henum : d.isEnum = true)
    (h : c.Suits d.fqn v) : ∃ t ∈ d.values, v = .text t := by
  have hlayer := (suits_declared_iff hc hd).mp h
  rwa [Layer, if_pos henum] at hlayer

/-- The values of other declared types are objects. -/
theorem exists_object (hc : c.Built) (hd : c.types.find? d.fqn = some d) (henum : d.isEnum = false)
    (h : c.Suits d.fqn v) : ∃ fields, v = .object fields ∧ ObjectLayer c.ConformsTo d fields := by
  have hlayer := (suits_declared_iff hc hd).mp h
  rwa [Layer, if_neg (by simp [henum])] at hlayer

/-- Items of a property are those that suit the type they are written as. -/
theorem itemConforms_iff_suits : ItemConforms c p v ↔ c.Suits p.ruleName v := by
  rw [itemConforms_iff, ItemLayer, Property.ruleName]
  split <;> rfl

theorem Suits.not_null (h : c.Suits T v) : v.isNull = false := by
  unfold Suits at h
  split at h
  · rename_i t _
    cases t with
    | string | dateTime | boolean =>
      obtain ⟨_, rfl⟩ := h
      rfl
    | integer | long | double => cases h <;> rfl
  · cases h <;> rfl

/-- **A value of a property** consists of items that suit its type. -/
theorem PropertyConforms.held (h : PropertyConforms c p v) : Held p (c.Suits p.ruleName) v := by
  cases h with
  | null hoptional => exact .inl ⟨hoptional, rfl⟩
  | single harray hv =>
    have hsuits := itemConforms_iff_suits.mp hv
    exact .inr (.inr ⟨harray, hsuits.not_null, hsuits⟩)
  | array harray hvs =>
    exact .inr (.inl ⟨harray, _, rfl, fun w hw => itemConforms_iff_suits.mp (hvs w hw)⟩)

/-- What an object of a type has for a property, which is null if it is left out, is a value of the
property. -/
theorem ObjectLayer.property {fields : List (String × Value)}
    (h : ObjectLayer c.ConformsTo d fields) (hp : p ∈ d.properties) :
    PropertyConforms c p ((Table.find? fields p.name).getD .null) := by
  cases hfind : Table.find? fields p.name with
  | some v => exact propertyConforms_iff.mpr (h.values p hp v hfind)
  | none =>
    refine .null ?_
    by_contra hrequired
    obtain ⟨v, hv⟩ := Table.exists_find (h.required p hp (by simpa using hrequired))
    cases hfind.symm.trans hv

/-! ### Values are written -/

/-- A type whose values have values of another one for a property. -/
def HasPart (c : Catalog) (T U : String) : Prop :=
  ∃ d, c.types.find? T = some d ∧ ∃ p ∈ d.properties, p.ruleName = U

/-- **A type that reaches no leaf**: neither a double, nor a date, nor an amount of money is a part
of its values, at any depth. -/
def Leafless (c : Catalog) (T : String) : Prop :=
  ∀ U, Relation.ReflTransGen c.HasPart T U → ¬ IsLeaf U

theorem Leafless.part (h : c.Leafless T) {U : String} (hU : c.HasPart T U) : c.Leafless U :=
  fun V hV => h V (.head hU hV)

/-- An item is written as its type is. -/
theorem one_eq (h : c.Suits p.ruleName v) :
    Writable.one p none v (c.writeAs s v) = c.writeAs s v p.ruleName := by
  unfold Writable.one
  split
  · rename_i hrelationship
    rw [Property.ruleName, if_pos hrelationship] at h ⊢
    obtain ⟨t, rfl⟩ := (suits_primitive_iff (t := .string) rfl).mp h
    rw [writeAs_primitive (t := .string) rfl]
    rfl
  · rename_i hrelationship
    rw [Property.ruleName, if_neg hrelationship]

/-- Objects name the type that they are written as. -/
theorem ObjectLayer.actualType {R : String → Value → Prop} {fields : List (String × Value)}
    (h : ObjectLayer R d fields) (hd : c.types.find? d.fqn = some d) :
    c.actualType d (.object fields) = .ok d := by
  simp [Catalog.actualType, Value.get?, h.type, get, hd]

/-- The items of a value of a property are no larger than the value. -/
theorem Held.sized {P : Value → Prop} (h : Held p P v) :
    Held p (fun w => P w ∧ sizeOf w ≤ sizeOf v) v := by
  rcases h with h | ⟨harray, vs, rfl, hall⟩ | ⟨harray, hnull, hv⟩
  · exact .inl h
  · refine .inr (.inl ⟨harray, vs, rfl, fun w hw => ⟨hall w hw, ?_⟩⟩)
    have hsize := List.sizeOf_lt_of_mem hw
    rw [Value.list.sizeOf_spec]
    omega
  · exact .inr (.inr ⟨harray, hnull, hv, le_rfl⟩)

/-- What an object has for a property is smaller than the object. -/
theorem sizeOf_entry (fields : List (String × Value)) (key : String) :
    sizeOf ((Table.find? fields key).getD .null) < sizeOf (Value.object fields) := by
  cases hfind : Table.find? fields key with
  | some v =>
    have hsize := List.sizeOf_lt_of_mem (Table.mem_of_find hfind)
    rw [Prod.mk.sizeOf_spec] at hsize
    rw [Option.getD_some, Value.object.sizeOf_spec]
    omega
  | none =>
    rw [Option.getD_none, Value.object.sizeOf_spec, Value.null.sizeOf_spec]
    cases fields <;> simp

/-- The declared type of values that suit it. -/
theorem exists_declared (ht : Primitive.ofName? T = none) (h : c.Suits T v) :
    ∃ d, c.types.find? d.fqn = some d ∧ d.fqn = T := by
  rw [Suits, ht] at h
  cases h with
  | enumeration hd => exact ⟨_, hd, rfl⟩
  | object hd => exact ⟨_, hd, rfl⟩

theorem isLeaf_of_primitive {t : Primitive} (ht : Primitive.ofName? T = some t)
    (hleaf : t = .double ∨ t = .dateTime) : IsLeaf T := by
  have hmem := Table.mem_of_find ht
  rcases hleaf with rfl | rfl
  · exact .inl (by simpa [Primitive.names] using hmem)
  · exact .inr (.inl (by simpa [Primitive.names] using hmem))

/-- **Every value of a type is written** that reaches no leaf. The induction is on the size of the
value. -/
theorem exists_writeAs (hc : c.Built) (h : c.Suits T v) (hT : c.Leafless T) :
    ∃ t, c.writeAs s v T = .ok t := by
  induction hsize : sizeOf v using Nat.strong_induction_on generalizing T v with
  | _ n ih =>
    subst hsize
    have hleaf : ¬ IsLeaf T := hT T .refl
    cases ht : Primitive.ofName? T with
    | some t =>
      rw [writeAs_primitive ht]
      rw [suits_primitive_iff ht] at h
      cases t with
      | string | boolean => exact ⟨_, rfl⟩
      | integer | long =>
        obtain ⟨n, hn⟩ := Value.IsWholeNumber.exists_toInt h
        exact ⟨toString n, by rw [Primitive.write, hn]; rfl⟩
      | double => exact absurd (isLeaf_of_primitive ht (.inl rfl)) hleaf
      | dateTime => exact absurd (isLeaf_of_primitive ht (.inr rfl)) hleaf
    | none =>
      obtain ⟨d, hd, rfl⟩ := exists_declared ht h
      have hmoney : d.fqn ≠ Monetary.typeName := fun hmoney => hleaf (.inr (.inr hmoney))
      cases henum : d.isEnum with
      | true =>
        rw [writeAs_declared hc hd hmoney, if_pos henum]
        exact ⟨_, rfl⟩
      | false =>
        obtain ⟨fields, rfl, hobject⟩ := exists_object hc hd henum h
        have hproperty : ∀ p ∈ d.properties, ∃ text,
            c.writeProperty s p ((Table.find? fields p.name).getD .null) none = .ok text := by
          intro p hp
          refine exists_writeProperty ((hobject.property hp).held.sized.mono fun w hw => ?_)
          rw [one_eq hw.1]
          exact ih _ (hw.2.trans_lt (sizeOf_entry fields p.name)) hw.1
            (hT.part ⟨d, hd, p, hp, rfl⟩) rfl
        choose! text htext using hproperty
        exact ⟨_, writeAs_object hc hd hmoney henum (hobject.actualType hd) htext⟩

/-! ### Texts -/

def textAs (c : Catalog) (s : Settings) (T : String) (v : Value) : List Char :=
  ((c.writeAs s v T).toOption.getD "").toList

def itemsOf (p : Property) (v : Value) : List Value :=
  if p.array then
    match v with
    | .list vs => vs
    | _ => []
  else if v.isNull then [] else [v]

/-- What is written for a value of a property: its items one after the other. -/
def textOf (c : Catalog) (s : Settings) (p : Property) (v : Value) : List Char :=
  (itemsOf p v).flatMap (c.textAs s p.ruleName)

theorem itemsOf_null (p : Property) : itemsOf p .null = [] := by
  unfold itemsOf
  split <;> rfl

theorem itemsOf_list (harray : p.array = true) (vs : List Value) : itemsOf p (.list vs) = vs := by
  rw [itemsOf, if_pos harray]

theorem itemsOf_single (harray : p.array = false) (hnull : v.isNull = false) :
    itemsOf p v = [v] := by
  simp [itemsOf, harray, hnull]

theorem textOf_single (harray : p.array = false) (hnull : v.isNull = false) :
    c.textOf s p v = c.textAs s p.ruleName v := by
  rw [textOf, itemsOf_single harray hnull, List.flatMap_singleton]

theorem writeAs_eq_text (hc : c.Built) (h : c.Suits T v) (hT : c.Leafless T) :
    c.writeAs s v T = .ok (String.ofList (c.textAs s T v)) := by
  obtain ⟨t, ht⟩ := exists_writeAs (s := s) hc h hT
  rw [textAs, ht]
  simp [Except.toOption]

theorem textAs_primitive {t : Primitive} (ht : Primitive.ofName? T = some t) {text : String}
    (h : t.write s v = .ok text) : c.textAs s T v = text.toList := by
  rw [textAs, writeAs_primitive ht, h]
  rfl

/-- **The value of a property is written** as its items one after the other. -/
theorem writeProperty_eq_text (hc : c.Built) (h : PropertyConforms c p v)
    (hT : c.Leafless p.ruleName) :
    c.writeProperty s p v none = .ok (String.ofList (c.textOf s p v)) := by
  have hone : ∀ w, c.Suits p.ruleName w → Writable.one p none w (c.writeAs s w) =
      .ok (String.ofList (c.textAs s p.ruleName w)) := by
    intro w hw
    rw [one_eq hw, writeAs_eq_text hc hw hT]
  rcases h.held with ⟨hoptional, rfl⟩ | ⟨harray, vs, rfl, hall⟩ | ⟨harray, hnull, hv⟩
  · rw [writeProperty_null hoptional, textOf, itemsOf_null]
    rfl
  · have htexts : List.Forall₂ (fun w text => Writable.one p none w (c.writeAs s w) = .ok text) vs
        (vs.map fun w => String.ofList (c.textAs s p.ruleName w)) := by
      rw [List.forall₂_map_right_iff]
      exact List.forall₂_same.mpr fun w hw => hone w (hall w hw)
    rw [writeProperty_list harray htexts, textOf, itemsOf_list harray]
    congr 1
    rw [← String.toList_inj, String.toList_join, String.toList_ofList, List.flatMap_map]
    simp
  · rw [writeProperty_one harray hnull, hone v hv, textOf_single harray hnull]

/-- **An object is written** as its properties are. -/
theorem textAs_object (hc : c.Built) (hd : c.types.find? d.fqn = some d) (henum : d.isEnum = false)
    (hT : c.Leafless d.fqn) {fields : List (String × Value)}
    (h : ObjectLayer c.ConformsTo d fields) : c.textAs s d.fqn (.object fields) =
      if d.properties.isEmpty then d.name.toList
      else [' '].intercalate (d.properties.map fun p =>
        c.textOf s p ((Table.find? fields p.name).getD .null)) := by
  have hmoney : d.fqn ≠ Monetary.typeName := fun hmoney => hT _ .refl (.inr (.inr hmoney))
  rw [textAs, writeAs_object hc hd hmoney henum (h.actualType hd) fun p hp =>
    writeProperty_eq_text hc (h.property hp) (hT.part ⟨d, hd, p, hp, rfl⟩)]
  simp only [Except.toOption, Option.getD_some]
  split
  · rfl
  · rw [String.toList_intercalate, List.map_map]
    simp [Function.comp_def]

theorem textAs_enum (hc : c.Built) (hd : c.types.find? d.fqn = some d) (henum : d.isEnum = true)
    (hT : c.Leafless d.fqn) (t : String) : c.textAs s d.fqn (.text t) = t.toList := by
  have hmoney : d.fqn ≠ Monetary.typeName := fun hmoney => hT _ .refl (.inr (.inr hmoney))
  rw [textAs, writeAs_declared hc hd hmoney, if_pos henum]
  rfl

end Catalog

end Covenant
