import Covenant.Proofs.Format.Written
import Covenant.Proofs.Schema.Typing

/-!
Values that are written.

* `Catalog.Held`: the values of a property, each with something that holds of it.
* `Catalog.exists_writeProperty`: the value of a property is written when its members are.
* `Catalog.writeAs_object`: an object is written as its properties are.
* `Catalog.Typed.write`: every value of a type is written, if its dates and amounts of money are
  plain.
-/

namespace Covenant.Catalog

variable {c : Catalog} {s : Settings} {p : Property} {format : Option String} {v : Value}

/-! ### Values of properties -/

/-- **A value of a property whose members are such** that something holds of them: it is absent from
an optional property, or a list for an array, or one value. -/
def Held (p : Property) (P : Value → Prop) (v : Value) : Prop :=
  (p.optional = true ∧ v = .null) ∨ (p.array = true ∧ ∃ vs, v = .list vs ∧ ∀ w ∈ vs, P w) ∨
    (p.array = false ∧ v.isNull = false ∧ P v)

theorem Held.mono {P Q : Value → Prop} (h : Held p P v) (hPQ : ∀ w, P w → Q w) : Held p Q v := by
  rcases h with h | ⟨harray, vs, rfl, hall⟩ | ⟨harray, hnull, hv⟩
  · exact .inl h
  · exact .inr (.inl ⟨harray, vs, rfl, fun w hw => hPQ w (hall w hw)⟩)
  · exact .inr (.inr ⟨harray, hnull, hPQ v hv⟩)

theorem TypedAs.held {leaf : String → Value → Prop} (h : c.TypedAs leaf p v) :
    Held p (c.Typed leaf p.ruleName) v := by
  cases harray : p.array with
  | true => exact .inr (.inl ⟨harray, (typedAs_array harray).mp h⟩)
  | false => exact .inr (.inr ⟨harray, h.not_null, (typedAs_single harray).mp h⟩)

/-- **The value of a property is written** when its members are. -/
theorem exists_writeProperty
    (h : Held p (fun w => ∃ t, Writable.one p format w (c.writeAs s w) = .ok t) v) :
    ∃ t, c.writeProperty s p v format = .ok t := by
  rcases h with ⟨hoptional, rfl⟩ | ⟨harray, vs, rfl, hall⟩ | ⟨harray, hnull, t, ht⟩
  · exact ⟨"", writeProperty_null hoptional format⟩
  · choose! text htext using hall
    refine ⟨String.join (vs.map text), writeProperty_list harray ?_⟩
    rw [List.forall₂_map_right_iff]
    exact List.forall₂_same.mpr htext
  · exact ⟨t, (writeProperty_one harray hnull format).trans ht⟩

/-- What is written as the type of a property is written as one value of it. -/
theorem exists_one (h : ∃ t, c.writeAs s v p.ruleName = .ok t) :
    ∃ t, Writable.one p none v (c.writeAs s v) = .ok t := by
  unfold Writable.one
  split
  · exact ⟨_, rfl⟩
  · rename_i hrelationship
    rwa [Property.ruleName, if_neg hrelationship] at h

/-! ### Values of types -/

/-- The default format of amounts of money shows codes. -/
theorem exists_defaultFormat : ∃ f r, MonetaryFormat.ofString Monetary.defaultFormat = .ok f ∧
    f.style = .code ∧ Formatted.monetary.rule Monetary.defaultFormat = .ok r :=
  ⟨_, _, rfl, rfl, rfl⟩

/-- Values of primitive types are written. -/
theorem write_primitive {F : DateFormat} (hdate : DateFormat.ofString s.dateFormat = .ok F) {T : String}
    {t : Primitive} (ht : Primitive.ofName? T = some t) (hv : t.Holds v)
    (hplain : t = .dateTime → Formatted.Plain T v) : ∃ text, t.write s v = .ok text := by
  cases t with
  | string | boolean => exact ⟨_, rfl⟩
  | integer | long =>
    obtain ⟨n, rfl⟩ := hv
    exact ⟨_, rfl⟩
  | double =>
    obtain ⟨x, rfl⟩ := hv
    exact ⟨_, rfl⟩
  | dateTime =>
    obtain rfl : T = "DateTime" := by simpa [Primitive.names] using Table.mem_of_find ht
    obtain ⟨m, o, hm, hoffset, ho, hwhole, rfl⟩ := (hplain rfl).date rfl
    rw [Primitive.write]
    exact DateTime.write_text hdate hm hoffset ho hwhole

/-- **An object is written** as its properties are, with a space between them. -/
theorem writeAs_object (hc : c.Built) {d : SchemaType} (hd : c.types.find? d.fqn = some d)
    (hmoney : d.fqn ≠ Monetary.typeName) (henum : d.isEnum = false) {fields : List (String × Value)}
    (hactual : c.actualType d (.object fields) = .ok d) {text : Property → String}
    (htext : ∀ p ∈ d.properties,
      c.writeProperty s p ((Table.find? fields p.name).getD .null) none = .ok (text p)) :
    c.writeAs s (.object fields) d.fqn =
      .ok (if d.properties.isEmpty then d.name else " ".intercalate (d.properties.map text)) := by
  have hproperties : writeProperties d (.object fields) (c.writableEntries s fields) =
      .ok (" ".intercalate (d.properties.map text)) := by
    rw [writeProperties]
    refine Outcome.bind_eq_ok.mpr ⟨d.properties.map text, ?_, rfl⟩
    refine Outcome.mapM_eq_ok_map fun p hp => ?_
    have hwrite := htext p hp
    rw [find_writableEntries]
    cases hfind : Table.find? fields p.name <;> rw [hfind] at hwrite <;> exact hwrite
  rw [writeAs_declared hc hd hmoney, if_neg (by simp [henum]), hactual]
  change (if d.properties.isEmpty then .ok d.name
    else writeProperties d (.object fields) (c.writableEntries s fields)) = _
  rw [hproperties]
  split <;> rfl

/-- **Every value of a type is written**, if its dates and amounts of money are plain. -/
theorem Typed.write (hc : c.Built) {F : DateFormat} (hdate : DateFormat.ofString s.dateFormat = .ok F)
    {T : String} (h : c.Typed Formatted.Plain T v) : ∃ text, c.writeAs s v T = .ok text := by
  induction h with
  | primitive ht hv hplain =>
    rw [writeAs_primitive ht]
    exact write_primitive hdate ht hv hplain
  | @enum d t hd henum ht =>
    have hmoney : d.fqn ≠ Monetary.typeName := by
      intro hmoney
      obtain ⟨_, hnot, _⟩ := hc.monetary_spec (hmoney ▸ hd)
      cases henum.symm.trans hnot
    rw [writeAs_declared hc hd hmoney, if_pos henum]
    exact ⟨_, rfl⟩
  | @object d fields hd henum habstract hclass hrequired _ hlist _ hsingle hplain ihmember
      ihsingle =>
    by_cases hmoney : d.fqn = Monetary.typeName
    · obtain ⟨f, r, hf, hcode, hrule⟩ := exists_defaultFormat
      rw [writeAs_eq, writeBy, hc.ofName_eq_none (Table.mem_names_of_find hd)]
      simp only [if_pos hmoney]
      refine Formatted.write_of_plain (k := .monetary) (T := d.fqn) (hmoney ▸ rfl) hrule (hplain hmoney)
        (by simp) fun _ f' hf' => ?_
      rw [← Except.ok.inj (hf.symm.trans hf'), hcode]
    · have hactual : c.actualType d (.object fields) = .ok d := by
        simp [actualType, Value.get?, hclass, habstract]
      -- what stands for a property among the entries, or nothing for an optional one
      have hproperty : ∀ p ∈ d.properties, ∃ text,
          c.writeProperty s p ((Table.find? fields p.name).getD .null) none = .ok text := by
        intro p hp
        apply exists_writeProperty
        cases hfind : Table.find? fields p.name with
        | none =>
          refine .inl ⟨?_, rfl⟩
          by_contra hoptional
          have hmem := hrequired p hp (by simpa using hoptional)
          obtain ⟨w, hw⟩ := Table.exists_find hmem
          cases hfind.symm.trans hw
        | some w =>
          cases harray : p.array with
          | true =>
            obtain ⟨vs, rfl⟩ := hlist p hp harray w hfind
            exact .inr (.inl ⟨harray, vs, rfl, fun w hw =>
              exists_one (ihmember p hp harray vs hfind w hw)⟩)
          | false =>
            exact .inr (.inr ⟨harray, (hsingle p hp harray w hfind).not_null,
              exists_one (ihsingle p hp harray w hfind)⟩)
      choose! text htext using hproperty
      exact ⟨_, writeAs_object hc hd hmoney henum hactual htext⟩

end Covenant.Catalog
