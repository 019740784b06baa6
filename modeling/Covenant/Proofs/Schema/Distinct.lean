import Covenant.Proofs.Schema.Texts
import Covenant.Proofs.Value.Canonical

/-!
Values that are told apart by their texts.

* `Value.Same`: values that differ in nothing but how numbers are stored, the order of keys, and in
  that nothing stands for an empty array.
* `Catalog.Delimited`: a type whose values are told apart whatever follows them;
  `Catalog.Solid`: one whose texts neither are empty nor begin with a space.
* `Catalog.Separable`: in all arrays the items are both, and optional values are solid.
* `Catalog.same_of_written`: then values with the same text are the same.
-/

namespace Covenant

/-! ### Values that are the same -/

/-- **Values that are the same**: a whole number may be stored as a double, the keys of objects may
stand in another order, and what is null may be left out, or be an empty array. -/
inductive Value.Same : Value → Value → Prop
  | null : Same .null .null
  | bool (b : Bool) : Same (.bool b) (.bool b)
  | text (s : String) : Same (.text s) (.text s)
  | number {v w : Value} {n : Int} (hv : v.IsWholeNumber) (hw : w.IsWholeNumber)
      (hvn : v.toInt? = some n) (hwn : w.toInt? = some n) : Same v w
  | absent : Same .null (.list [])
  | empty : Same (.list []) .null
  | list {vs ws : List Value} (hlength : vs.length = ws.length)
      (h : ∀ e ∈ vs.zip ws, Same e.1 e.2) : Same (.list vs) (.list ws)
  | object {fields fields' : List (String × Value)}
      (h : ∀ key, Same ((Table.find? fields key).getD .null) ((Table.find? fields' key).getD .null)) :
      Same (.object fields) (.object fields')

namespace Text

/-! ### Where texts end -/

variable {cs ds : List Char}

/-- A text that ends here, or goes on with a space. -/
def Stops (cs : List Char) : Prop :=
  ∀ c ∈ cs.head?, c = ' '

/-- A text that begins, and with no space. -/
def Marked (cs : List Char) : Prop :=
  ∃ c ∈ cs.head?, c ≠ ' '

theorem Marked.append (h : Marked cs) (ds : List Char) : Marked (cs ++ ds) := by
  obtain ⟨c, hc, hspace⟩ := h
  exact ⟨c, by simp [Option.mem_def.mp hc], hspace⟩

theorem Marked.not_stops (h : Marked cs) : ¬ Stops cs := by
  obtain ⟨c, hc, hspace⟩ := h
  exact fun hstops => hspace (hstops c hc)

theorem stops_space (cs : List Char) : Stops (' ' :: cs) := by
  intro c hc
  cases hc
  rfl

theorem stops_nil : Stops [] :=
  fun _ h => nomatch h

/-- The characters of whole numbers up to a space. -/
theorem takeWhile_number {n : Int} (h : Stops cs) :
    ((toString n).toList ++ cs).takeWhile Decimal.inDouble = (toString n).toList := by
  rw [List.takeWhile_append_of_pos fun c hc => Json.inDouble_of_mem_toString hc]
  cases cs with
  | nil => simp
  | cons c cs =>
    obtain rfl : c = ' ' := h c rfl
    rw [List.takeWhile_cons_of_neg (by decide), List.append_nil]

/-- **Whole numbers** are told apart in front of a space. -/
theorem number_told {m n : Int} (hcs : Stops cs) (hds : Stops ds)
    (h : (toString m).toList ++ cs = (toString n).toList ++ ds) : m = n ∧ cs = ds := by
  have hnumber := congrArg (List.takeWhile Decimal.inDouble) h
  rw [takeWhile_number hcs, takeWhile_number hds] at hnumber
  obtain rfl := Json.toString_injective (String.toList_injective hnumber)
  exact ⟨rfl, List.append_cancel_left h⟩

theorem marked_number (n : Int) : Marked (toString n).toList := by
  have hne : (toString n).toList ≠ [] := by
    cases n with
    | ofNat n =>
      rw [toList_toString_ofNat]
      exact Nat.toDigits_ne_nil
    | negSucc n =>
      rw [toList_toString_negSucc]
      exact List.cons_ne_nil _ _
  obtain ⟨c, cs, hcs⟩ := List.exists_cons_of_ne_nil hne
  have hc := Json.inDouble_of_mem_toString (n := n) (hcs ▸ List.mem_cons_self)
  refine ⟨c, by rw [hcs]; rfl, ?_⟩
  rintro rfl
  cases hc

theorem marked_literal (t : String) : Marked (JsonText.literal false t).toList :=
  ⟨'"', by simp [JsonText.literal], by decide⟩

/-- A name begins with a letter or an underscore. -/
theorem marked_of_isName {name : String} (h : isName name = true) : Marked name.toList := by
  unfold isName withoutLineFeed at h
  cases hcs : name.toList with
  | nil =>
    rw [hcs] at h
    cases h
  | cons c cs =>
    refine ⟨c, rfl, ?_⟩
    rintro rfl
    rw [hcs] at h
    split at h
    · cases cs <;> simp [isIdentifier] at h
    · simp only [isIdentifier, Bool.and_eq_true] at h
      exact absurd h.1 (by decide)

end Text

namespace Catalog

open Text

variable {c : Catalog} {s : Settings} {p : Property} {T : String} {d : SchemaType} {v w : Value}

/-! ### Types whose values are told apart -/

/-- **A type whose texts neither are empty nor begin with a space.** -/
inductive Solid (c : Catalog) : String → Prop
  | primitive {T : String} {t : Primitive} (ht : Primitive.ofName? T = some t) : Solid c T
  | enum {d : SchemaType} (hd : c.types.find? d.fqn = some d) (henum : d.isEnum = true)
      (hvalues : ∀ t ∈ d.values, Marked t.toList) : Solid c d.fqn
  | bare {d : SchemaType} (hd : c.types.find? d.fqn = some d) (henum : d.isEnum = false)
      (hbare : d.properties = []) : Solid c d.fqn
  | object {d : SchemaType} {p : Property} {ps : List Property} (hd : c.types.find? d.fqn = some d)
      (henum : d.isEnum = false) (hproperties : d.properties = p :: ps) (harray : p.array = false)
      (hoptional : p.optional = false) (hp : Solid c p.ruleName) : Solid c d.fqn

/-- **A type whose values are told apart whatever follows them**: no text of one goes on from
another. -/
inductive Delimited (c : Catalog) : String → Prop
  | text : Delimited c "String"
  | boolean : Delimited c "Boolean"
  | enum {d : SchemaType} (hd : c.types.find? d.fqn = some d) (henum : d.isEnum = true)
      (hvalues : ∀ t ∈ d.values, ∀ u ∈ d.values, t.toList <+: u.toList → t = u) : Delimited c d.fqn
  | bare {d : SchemaType} (hd : c.types.find? d.fqn = some d) (henum : d.isEnum = false)
      (hbare : d.properties = []) : Delimited c d.fqn
  | object {d : SchemaType} {p : Property} {ps : List Property} (hd : c.types.find? d.fqn = some d)
      (henum : d.isEnum = false) (hproperties : d.properties = ps ++ [p]) (harray : p.array = false)
      (hoptional : p.optional = false) (hp : Delimited c p.ruleName) : Delimited c d.fqn

/-- **Values of a property are told apart if its items are**: those of arrays stand side by side, and
an absent value leaves nothing. -/
structure Clear (c : Catalog) (p : Property) : Prop where
  array : p.array = true → c.Delimited p.ruleName ∧ c.Solid p.ruleName
  optional : p.array = false → p.optional = true → c.Solid p.ruleName

/-- What tells the values of a type apart, if those of its parts are: values of enumerations do not
go on from each other after a space. -/
structure ClearType (c : Catalog) (T : String) : Prop where
  leafless : ¬ IsLeaf T
  values : ∀ d, c.types.find? T = some d → d.isEnum = true → ∀ t ∈ d.values, ∀ u ∈ d.values,
    ¬ (t ++ " ").toList <+: u.toList
  properties : ∀ d, c.types.find? T = some d → ∀ p ∈ d.properties, c.Clear p

/-- A type that reaches only types whose values are told apart. -/
def ClearBelow (c : Catalog) (T : String) : Prop :=
  ∀ U, Relation.ReflTransGen c.HasPart T U → c.ClearType U

/-- **A property whose values are told apart by their texts.** -/
structure Separable (c : Catalog) (p : Property) : Prop where
  clear : c.Clear p
  below : c.ClearBelow p.ruleName

theorem ClearBelow.leafless (h : c.ClearBelow T) : c.Leafless T :=
  fun U hU => (h U hU).leafless

theorem ClearBelow.part (h : c.ClearBelow T) {U : String} (hU : c.HasPart T U) : c.ClearBelow U :=
  fun V hV => h V (.head hU hV)

theorem Built.marked_name (hc : c.Built) (hd : c.types.find? d.fqn = some d) :
    Marked d.name.toList := by
  obtain ⟨f, hf, t, ht, _, hname, _⟩ := (hc.declared _ (Table.mem_of_find hd)).type
  rw [hname]
  exact marked_of_isName ((hc.named f hf).types t ht)

/-- **Texts of solid types** are not empty, and begin with no space. -/
theorem Solid.marked (hc : c.Built) (hsolid : c.Solid T) (h : c.Suits T v) (hT : c.Leafless T) :
    Marked (c.textAs s T v) := by
  induction hsolid generalizing v with
  | @primitive T t ht =>
    have hleaf : ¬ IsLeaf T := hT T .refl
    rw [suits_primitive_iff ht] at h
    cases t with
    | string =>
      obtain ⟨t, rfl⟩ := h
      rw [textAs_primitive ht rfl]
      exact marked_literal t
    | boolean =>
      obtain ⟨b, rfl⟩ := h
      rw [textAs_primitive ht rfl]
      cases b
      · exact ⟨'f', rfl, by decide⟩
      · exact ⟨'t', rfl, by decide⟩
    | integer | long =>
      obtain ⟨n, hn⟩ := Value.IsWholeNumber.exists_toInt h
      rw [textAs_primitive ht (show Primitive.write s _ v = .ok (toString n) by
        rw [Primitive.write, hn]; rfl)]
      exact marked_number n
    | double => exact absurd (isLeaf_of_primitive ht (.inl rfl)) hleaf
    | dateTime => exact absurd (isLeaf_of_primitive ht (.inr rfl)) hleaf
  | @enum d hd henum hvalues =>
    obtain ⟨t, ht, rfl⟩ := exists_of_enum hc hd henum h
    rw [textAs_enum hc hd henum hT]
    exact hvalues t ht
  | @bare d hd henum hbare =>
    obtain ⟨fields, rfl, hobject⟩ := exists_object hc hd henum h
    rw [textAs_object hc hd henum hT hobject, if_pos (by simp [hbare])]
    exact hc.marked_name hd
  | @object d p ps hd henum hproperties harray hoptional hp ih =>
    obtain ⟨fields, rfl, hobject⟩ := exists_object hc hd henum h
    have hmem : p ∈ d.properties := by simp [hproperties]
    obtain ⟨hnull, hsuits⟩ : ((Table.find? fields p.name).getD .null).isNull = false ∧
        c.Suits p.ruleName ((Table.find? fields p.name).getD .null) := by
      rcases (hobject.property hmem).held with ⟨h, _⟩ | ⟨h, _⟩ | ⟨_, h⟩
      · cases hoptional.symm.trans h
      · cases harray.symm.trans h
      · exact h
    have hfirst := ih hsuits (hT.part ⟨d, hd, p, hmem, rfl⟩)
    rw [← textOf_single harray hnull] at hfirst
    rw [textAs_object hc hd henum hT hobject, if_neg (by simp [hproperties]), hproperties]
    cases ps with
    | nil => simpa using hfirst
    | cons q ps =>
      rw [List.map_cons, List.map_cons, List.intercalate_cons_cons, List.append_assoc]
      exact hfirst.append _

/-! ### Values told apart -/

/-- **A value is told apart** from the others of a type by its text, where what follows is such that
`ρ` holds of it. -/
def Told (c : Catalog) (s : Settings) (T : String) (ρ : List Char → Prop) (v : Value) : Prop :=
  ∀ w, c.Suits T w → ∀ r r', ρ r → ρ r' → c.textAs s T v ++ r = c.textAs s T w ++ r' →
    v.Same w ∧ r = r'

/-- What follows the values of a type can be told from them: it begins with a space, if it does not
end there, or the values are delimited. -/
def Followed (c : Catalog) (T : String) (ρ : List Char → Prop) : Prop :=
  (∀ r, ρ r → Stops r) ∨ c.Delimited T

section Types

variable {ρ : List Char → Prop}

theorem Delimited.not_number (h : c.Delimited T) (hc : c.Built) :
    Primitive.ofName? T ≠ some .integer ∧ Primitive.ofName? T ≠ some .long := by
  cases h with
  | text | boolean => exact ⟨by decide, by decide⟩
  | enum hd | bare hd | object hd =>
    rw [hc.ofName_eq_none (Table.mem_names_of_find hd)]
    exact ⟨nofun, nofun⟩

/-- Values of delimited enumerations do not go on from each other. -/
theorem Delimited.values (h : c.Delimited T) (hT : d.fqn = T) (hc : c.Built)
    (hd : c.types.find? d.fqn = some d) (henum : d.isEnum = true) :
    ∀ t ∈ d.values, ∀ u ∈ d.values, t.toList <+: u.toList → t = u := by
  subst hT
  have hnone := hc.ofName_eq_none (Table.mem_names_of_find hd)
  generalize hfqn : d.fqn = T at h hnone
  cases h with
  | text | boolean => cases hnone
  | enum hd' _ hvalues =>
    rw [← hfqn, hd] at hd'
    cases hd'
    exact hvalues
  | bare hd' henum' | object hd' henum' =>
    rw [← hfqn, hd] at hd'
    cases hd'
    cases henum.symm.trans henum'

/-- The last property of a delimited type is required, and delimited. -/
theorem Delimited.last (h : c.Delimited d.fqn) (hc : c.Built) (hd : c.types.find? d.fqn = some d)
    (henum : d.isEnum = false) {ps : List Property} (hproperties : d.properties = ps ++ [p]) :
    p.array = false ∧ p.optional = false ∧ c.Delimited p.ruleName := by
  have hnone := hc.ofName_eq_none (Table.mem_names_of_find hd)
  generalize hfqn : d.fqn = T at h hnone
  cases h with
  | text | boolean => cases hnone
  | enum hd' henum' =>
    rw [← hfqn, hd] at hd'
    cases hd'
    cases henum.symm.trans henum'
  | bare hd' _ hbare =>
    rw [← hfqn, hd] at hd'
    cases hd'
    rw [hbare] at hproperties
    simp at hproperties
  | object hd' _ hproperties' harray hoptional hp =>
    rw [← hfqn, hd] at hd'
    cases hd'
    obtain ⟨-, rfl⟩ := List.append_singleton_inj.mp (hproperties.symm.trans hproperties')
    exact ⟨harray, hoptional, hp⟩

/-- **Values of primitive types** are told apart. -/
theorem told_primitive (hc : c.Built) {t : Primitive} (ht : Primitive.ofName? T = some t)
    (hleaf : ¬ IsLeaf T) (hρ : c.Followed T ρ) (h : c.Suits T v) : c.Told s T ρ v := by
  intro w hw r r' hr hr' heq
  rw [suits_primitive_iff ht] at h hw
  have hnumber : (t = .integer ∨ t = .long) → v.IsWholeNumber → w.IsWholeNumber →
      v.Same w ∧ r = r' := by
    intro hkind hv hw
    have hstops : ∀ r, ρ r → Stops r := hρ.resolve_right fun hdelimited => by
      rcases hkind with rfl | rfl
      · exact (hdelimited.not_number hc).1 ht
      · exact (hdelimited.not_number hc).2 ht
    have hwrite : ∀ {u : Value} {n : Int}, u.toInt? = some n → t.write s u = .ok (toString n) := by
      intro u n hn
      rcases hkind with rfl | rfl <;> rw [Primitive.write, hn] <;> rfl
    obtain ⟨m, hm⟩ := hv.exists_toInt
    obtain ⟨n, hn⟩ := hw.exists_toInt
    rw [textAs_primitive ht (hwrite hm), textAs_primitive ht (hwrite hn)] at heq
    obtain ⟨rfl, hrest⟩ := number_told (hstops r hr) (hstops r' hr') heq
    exact ⟨.number hv hw hm hn, hrest⟩
  cases t with
  | string =>
    obtain ⟨x, rfl⟩ := h
    obtain ⟨y, rfl⟩ := hw
    rw [textAs_primitive ht rfl, textAs_primitive ht rfl] at heq
    obtain ⟨rfl, hrest⟩ := Json.literal_readable heq
    exact ⟨.text x, hrest⟩
  | boolean =>
    obtain ⟨x, rfl⟩ := h
    obtain ⟨y, rfl⟩ := hw
    rw [textAs_primitive ht rfl, textAs_primitive ht rfl] at heq
    cases x <;> cases y
    · exact ⟨.bool false, List.append_cancel_left heq⟩
    · cases heq
    · cases heq
    · exact ⟨.bool true, List.append_cancel_left heq⟩
  | integer => exact hnumber (.inl rfl) h hw
  | long => exact hnumber (.inr rfl) h hw
  | double => exact absurd (isLeaf_of_primitive ht (.inl rfl)) hleaf
  | dateTime => exact absurd (isLeaf_of_primitive ht (.inr rfl)) hleaf

/-- **Values of enumerations** are told apart. -/
theorem told_enum (hc : c.Built) (hd : c.types.find? d.fqn = some d) (henum : d.isEnum = true)
    (hbelow : c.ClearBelow d.fqn) (hρ : c.Followed d.fqn ρ) (h : c.Suits d.fqn v) :
    c.Told s d.fqn ρ v := by
  intro w hw r r' hr hr' heq
  obtain ⟨t, ht, rfl⟩ := exists_of_enum hc hd henum h
  obtain ⟨u, hu, rfl⟩ := exists_of_enum hc hd henum hw
  rw [textAs_enum hc hd henum hbelow.leafless, textAs_enum hc hd henum hbelow.leafless] at heq
  -- one text goes on from the other by what follows
  have hsame : ∀ t ∈ d.values, ∀ u ∈ d.values, ∀ cs r r', ρ r → u.toList = t.toList ++ cs →
      r = cs ++ r' → t = u ∧ cs = [] := by
    intro t ht u hu cs r r' hr htext hrest
    rcases hρ with hstops | hdelimited
    · cases cs with
      | nil =>
        rw [List.append_nil] at htext
        exact ⟨String.toList_injective htext.symm, rfl⟩
      | cons x cs =>
        obtain rfl : x = ' ' := hstops r hr x (by rw [hrest]; rfl)
        refine absurd ?_ ((hbelow _ .refl).values d hd henum t ht u hu)
        exact ⟨cs, by simp [htext]⟩
    · obtain rfl := hdelimited.values rfl hc hd henum t ht u hu ⟨cs, htext.symm⟩
      exact ⟨rfl, by simpa using htext⟩
  rcases List.append_eq_append_iff.mp heq with ⟨cs, htext, hrest⟩ | ⟨cs, htext, hrest⟩
  · obtain ⟨rfl, rfl⟩ := hsame t ht u hu cs r r' hr htext hrest
    exact ⟨.text t, hrest⟩
  · obtain ⟨rfl, rfl⟩ := hsame u hu t ht cs r' r hr' htext hrest
    exact ⟨.text u, hrest.symm⟩

/-- **Items side by side** are told apart if each of them is, whatever follows it, and the texts are
solid. -/
theorem told_items {vs ws : List Value} (hvs : ∀ v ∈ vs, c.Told s T (fun _ => True) v)
    (hws : ∀ w ∈ ws, c.Suits T w) (hmarked : ∀ v, v ∈ vs ∨ v ∈ ws → Marked (c.textAs s T v))
    {r r' : List Char} (hr : Stops r) (hr' : Stops r')
    (h : vs.flatMap (c.textAs s T) ++ r = ws.flatMap (c.textAs s T) ++ r') :
    (vs.length = ws.length ∧ ∀ e ∈ vs.zip ws, e.1.Same e.2) ∧ r = r' := by
  induction vs generalizing ws with
  | nil =>
    cases ws with
    | nil => exact ⟨⟨rfl, nofun⟩, h⟩
    | cons w ws =>
      refine absurd hr ?_
      rw [show r = _ from h, List.flatMap_cons, List.append_assoc]
      exact ((hmarked w (.inr List.mem_cons_self)).append _).not_stops
  | cons v vs ih =>
    cases ws with
    | nil =>
      refine absurd hr' ?_
      rw [show r' = _ from h.symm, List.flatMap_cons, List.append_assoc]
      exact ((hmarked v (.inl List.mem_cons_self)).append _).not_stops
    | cons w ws =>
      obtain ⟨hv, hvs⟩ := List.forall_mem_cons.mp hvs
      obtain ⟨hw, hws⟩ := List.forall_mem_cons.mp hws
      rw [List.flatMap_cons, List.flatMap_cons, List.append_assoc, List.append_assoc] at h
      obtain ⟨hsame, hrest⟩ := hv w hw _ _ trivial trivial h
      obtain ⟨⟨hlength, hall⟩, hrest⟩ := ih hvs hws (fun u hu => hmarked u
        (hu.imp (List.mem_cons_of_mem _) (List.mem_cons_of_mem _))) hrest
      refine ⟨⟨congrArg (· + 1) hlength, ?_⟩, hrest⟩
      rw [List.zip_cons_cons, List.forall_mem_cons]
      exact ⟨hsame, hall⟩

/-- **A value of a property is told apart** from the others, where what follows is such that `ρ`
holds of it. -/
def PropertyTold (c : Catalog) (s : Settings) (p : Property) (ρ : List Char → Prop) (v : Value) :
    Prop :=
  ∀ w, PropertyConforms c p w → ∀ r r', ρ r → ρ r' →
    c.textOf s p v ++ r = c.textOf s p w ++ r' → v.Same w ∧ r = r'

/-- A value of an array is a list, or null. -/
theorem exists_items (harray : p.array = true) (h : PropertyConforms c p v) :
    ∃ vs, c.textOf s p v = vs.flatMap (c.textAs s p.ruleName) ∧
      (v = .list vs ∨ v = .null ∧ vs = []) ∧
        ∀ w ∈ vs, c.Suits p.ruleName w ∧ sizeOf w ≤ sizeOf v := by
  rcases h.held.sized with ⟨_, rfl⟩ | ⟨_, vs, rfl, hall⟩ | ⟨hsingle, _⟩
  · exact ⟨[], by rw [textOf, itemsOf_null], .inr ⟨rfl, rfl⟩, nofun⟩
  · exact ⟨vs, by rw [textOf, itemsOf_list harray], .inl rfl, hall⟩
  · cases harray.symm.trans hsingle

/-- A value of another property is an item, or null. -/
theorem single_cases (harray : p.array = false) (h : PropertyConforms c p v) :
    (p.optional = true ∧ v = .null ∧ c.textOf s p v = []) ∨
      (c.Suits p.ruleName v ∧ c.textOf s p v = c.textAs s p.ruleName v) := by
  rcases h.held with ⟨hoptional, rfl⟩ | ⟨hmany, _⟩ | ⟨_, hnull, hsuits⟩
  · exact .inl ⟨hoptional, rfl, by rw [textOf, itemsOf_null]; rfl⟩
  · cases harray.symm.trans hmany
  · exact .inr ⟨hsuits, textOf_single harray hnull⟩

/-- **Values of a property** are told apart if its items are. -/
theorem told_property (hc : c.Built) (hclear : c.Clear p) (hleafless : c.Leafless p.ruleName)
    (hv : PropertyConforms c p v)
    (hitem : ∀ w, c.Suits p.ruleName w → sizeOf w ≤ sizeOf v → ∀ σ, c.Followed p.ruleName σ →
      c.Told s p.ruleName σ w)
    (hρ : (∀ r, ρ r → Stops r) ∨
      p.array = false ∧ p.optional = false ∧ c.Delimited p.ruleName) : c.PropertyTold s p ρ v := by
  intro w hw r r' hr hr' h
  cases harray : p.array with
  | true =>
    have hstops : ∀ r, ρ r → Stops r := hρ.resolve_right fun h => absurd harray (by simp [h.1])
    obtain ⟨hdelimited, hsolid⟩ := hclear.array harray
    obtain ⟨vs, hvtext, hvs, hvsuits⟩ := exists_items (s := s) harray hv
    obtain ⟨ws, hwtext, hws, hwsuits⟩ := exists_items (s := s) harray hw
    rw [hvtext, hwtext] at h
    obtain ⟨⟨hlength, hsame⟩, hrest⟩ := told_items
      (fun x hx => hitem x (hvsuits x hx).1 (hvsuits x hx).2 _ (.inr hdelimited))
      (fun x hx => (hwsuits x hx).1)
      (fun x hx => hsolid.marked hc (hx.elim (fun hx => (hvsuits x hx).1) fun hx => (hwsuits x hx).1)
        hleafless) (hstops r hr) (hstops r' hr') h
    refine ⟨?_, hrest⟩
    rcases hvs with rfl | ⟨rfl, rfl⟩ <;> rcases hws with rfl | ⟨rfl, rfl⟩
    · exact .list hlength hsame
    · rw [List.length_eq_zero_iff.mp hlength]
      exact .empty
    · rw [List.length_eq_zero_iff.mp hlength.symm]
      exact .absent
    · exact .null
  | false =>
    have habsent : p.optional = true → (∀ r, ρ r → Stops r) ∧ c.Solid p.ruleName := fun hoptional =>
      ⟨hρ.resolve_right fun h => absurd hoptional (by simp [h.2.1]),
        hclear.optional harray hoptional⟩
    have hmarked : ∀ {x : Value} {r r' : List Char}, p.optional = true → c.Suits p.ruleName x →
        ρ r → r ≠ c.textAs s p.ruleName x ++ r' := by
      rintro x r r' hoptional hx hr rfl
      obtain ⟨hstops, hsolid⟩ := habsent hoptional
      exact ((hsolid.marked hc hx hleafless).append r').not_stops (hstops _ hr)
    rcases single_cases (s := s) harray hv with ⟨hoptional, rfl, hvtext⟩ | ⟨hvsuits, hvtext⟩ <;>
      rcases single_cases (s := s) harray hw with ⟨hoptional', rfl, hwtext⟩ | ⟨hwsuits, hwtext⟩ <;>
      simp only [hvtext, hwtext] at h
    · exact ⟨.null, h⟩
    · exact absurd h (hmarked hoptional hwsuits hr)
    · exact absurd h.symm (hmarked hoptional' hvsuits hr')
    · exact hitem v hvsuits le_rfl ρ (hρ.imp_right fun h => h.2.2) w hwsuits r r' hr hr' h

/-- **Properties with a space between them** are told apart if each of them is. -/
theorem told_properties {ps : List Property} {u u' : Property → Value}
    (hps : ∀ q ∈ ps, c.PropertyTold s q Stops (u q)) (hp : c.PropertyTold s p ρ (u p))
    (hu' : ∀ q ∈ ps ++ [p], PropertyConforms c q (u' q)) {r r' : List Char} (hr : ρ r) (hr' : ρ r')
    (h : [' '].intercalate ((ps ++ [p]).map fun q => c.textOf s q (u q)) ++ r =
      [' '].intercalate ((ps ++ [p]).map fun q => c.textOf s q (u' q)) ++ r') :
    (∀ q ∈ ps ++ [p], (u q).Same (u' q)) ∧ r = r' := by
  induction ps with
  | nil =>
    obtain ⟨hsame, hrest⟩ := hp (u' p) (hu' p (by simp)) r r' hr hr' (by simpa using h)
    exact ⟨by simpa using hsame, hrest⟩
  | cons q ps ih =>
    obtain ⟨hq, hps⟩ := List.forall_mem_cons.mp hps
    obtain ⟨hq', hu'⟩ := List.forall_mem_cons.mp hu'
    have hfirst : ∀ (x : Property → Value) (t : List Char),
        [' '].intercalate ((q :: ps ++ [p]).map fun q => c.textOf s q (x q)) ++ t =
          c.textOf s q (x q) ++
            ' ' :: ([' '].intercalate ((ps ++ [p]).map fun q => c.textOf s q (x q)) ++ t) := by
      intro x t
      obtain ⟨y, ys, hys⟩ := List.exists_cons_of_ne_nil (l := ps ++ [p]) (by simp)
      rw [List.cons_append, hys, List.map_cons, List.map_cons, List.intercalate_cons_cons]
      simp
    rw [hfirst, hfirst] at h
    obtain ⟨hsame, hrest⟩ := hq (u' q) hq' _ _ (stops_space _) (stops_space _) h
    obtain ⟨hall, hrest⟩ := ih hps hu' (List.cons.inj hrest).2
    exact ⟨List.forall_mem_cons.mpr ⟨hsame, hall⟩, hrest⟩

/-- Objects of a type are the same if their properties are. -/
theorem same_object {fields fields' : List (String × Value)}
    (h : ObjectLayer c.ConformsTo d fields) (h' : ObjectLayer c.ConformsTo d fields')
    (hsame : ∀ p ∈ d.properties, ((Table.find? fields p.name).getD .null).Same
      ((Table.find? fields' p.name).getD .null)) : (Value.object fields).Same (.object fields') := by
  refine .object fun key => ?_
  by_cases hkey : key = classKey
  · rw [hkey, h.type, h'.type]
    exact .text d.fqn
  by_cases hproperty : key ∈ d.properties.map Property.name
  · obtain ⟨p, hp, rfl⟩ := List.mem_map.mp hproperty
    exact hsame p hp
  · have hnone : ∀ fs : List (String × Value),
        (∀ n ∈ Table.names fs, n = classKey ∨ n ∈ d.properties.map Property.name) →
          Table.find? fs key = none := by
      intro fs hfs
      rw [Table.find_eq_none_iff]
      exact fun hmem => (hfs key hmem).elim hkey hproperty
    rw [hnone fields h.keys, hnone fields' h'.keys]
    exact .null

/-- **Values are told apart** where all types below are clear. The induction is on the size of the
value. -/
theorem told (hc : c.Built) (hbelow : c.ClearBelow T) (hρ : c.Followed T ρ) (h : c.Suits T v) :
    c.Told s T ρ v := by
  induction hsize : sizeOf v using Nat.strong_induction_on generalizing T v ρ with
  | _ n ih =>
    subst hsize
    cases ht : Primitive.ofName? T with
    | some t => exact told_primitive hc ht (hbelow.leafless T .refl) hρ h
    | none =>
      obtain ⟨d, hd, rfl⟩ := exists_declared ht h
      cases henum : d.isEnum with
      | true => exact told_enum hc hd henum hbelow hρ h
      | false =>
        intro w hw r r' hr hr' heq
        obtain ⟨fields, rfl, hobject⟩ := exists_object hc hd henum h
        obtain ⟨fields', rfl, hobject'⟩ := exists_object hc hd henum hw
        rw [textAs_object hc hd henum hbelow.leafless hobject,
          textAs_object hc hd henum hbelow.leafless hobject'] at heq
        have hproperty : ∀ p ∈ d.properties, ∀ σ, ((∀ r, σ r → Stops r) ∨
            p.array = false ∧ p.optional = false ∧ c.Delimited p.ruleName) →
              c.PropertyTold s p σ ((Table.find? fields p.name).getD .null) := by
          intro p hp σ hσ
          have hpart := hbelow.part ⟨d, hd, p, hp, rfl⟩
          refine told_property hc ((hbelow _ .refl).properties d hd p hp) hpart.leafless
            (hobject.property hp) (fun w hw hsize τ hτ => ?_) hσ
          exact ih _ (hsize.trans_lt (sizeOf_entry fields p.name)) hpart hτ hw rfl
        rcases List.eq_nil_or_concat d.properties with hbare | ⟨ps, p, hps⟩
        · rw [if_pos (by simp [hbare]), if_pos (by simp [hbare])] at heq
          exact ⟨same_object hobject hobject' (by simp [hbare]), List.append_cancel_left heq⟩
        · rw [List.concat_eq_append] at hps
          have hmem : ∀ q ∈ ps ++ [p], q ∈ d.properties := fun q hq => hps ▸ hq
          rw [if_neg (by simp [hps]), if_neg (by simp [hps]), hps] at heq
          obtain ⟨hsame, hrest⟩ := told_properties
            (fun q hq => hproperty q (hmem q (by simp [hq])) Stops (.inl fun _ h => h))
            (hproperty p (hmem p (by simp)) ρ
              (hρ.imp_right fun hdelimited => hdelimited.last hc hd henum hps))
            (fun q hq => hobject'.property (hmem q hq)) hr hr' heq
          exact ⟨same_object hobject hobject' (hps ▸ hsame), hrest⟩

end Types

/-- **Values of a separable property are written, and told apart by their texts.** -/
theorem same_of_written (hc : c.Built) (hp : c.Separable p) (hv : PropertyConforms c p v)
    (hw : PropertyConforms c p w) : ∃ t u, c.writeProperty s p v = .ok t ∧
      c.writeProperty s p w = .ok u ∧ (t = u → v.Same w) := by
  have hleafless := hp.below.leafless
  refine ⟨_, _, writeProperty_eq_text hc hv hleafless, writeProperty_eq_text hc hw hleafless,
    fun h => ?_⟩
  have htold := told_property (s := s) (ρ := Stops) hc hp.clear hleafless hv
    (fun x hx _ _ hσ => told hc hp.below hσ hx) (.inl fun _ h => h)
  refine (htold w hw [] [] stops_nil stops_nil ?_).1
  rw [List.append_nil, List.append_nil]
  exact String.ofList_injective h

end Catalog

/-! ### A model of persons -/

namespace Kin

/-- A model of persons, who may have other names and a parent. -/
def model : ModelFile where
  ns := "kin"
  declarations :=
    [{ kind := .enumeration, name := "Role", values := ["child", "adult"] },
     { kind := .concept, name := "Person"
       properties :=
        [{ name := "name", type := "String" },
         { name := "role", type := "Role" },
         { name := "aliases", type := "String", array := true, optional := true },
         { name := "parent", type := "Person", optional := true }] }]

def catalog : Catalog :=
  (Catalog.system.add model.toValue).2

def role : SchemaType where
  fqn := "kin.Role"
  ns := "kin"
  name := "Role"
  kind := .enumeration
  values := ["child", "adult"]

def person : SchemaType where
  fqn := "kin.Person"
  ns := "kin"
  name := "Person"
  kind := .concept
  properties :=
    [{ name := "name", typeName := "String", type := "String" },
     { name := "role", typeName := "Role", type := "kin.Role" },
     { name := "aliases", typeName := "String", type := "String", array := true, optional := true },
     { name := "parent", typeName := "Person", type := "kin.Person", optional := true }]

theorem find_types : catalog.types.find? role.fqn = some role ∧
    catalog.types.find? person.fqn = some person := by
  decide +kernel

def owner : Property where
  name := "owner"
  typeName := "Person"
  type := person.fqn

theorem solid_person : catalog.Solid person.fqn :=
  .object find_types.2 rfl rfl rfl rfl (.primitive (t := .string) rfl)

/-- Persons reach roles and texts. -/
theorem clearBelow_person : catalog.ClearBelow person.fqn := by
  have hreach : ∀ U, Relation.ReflTransGen catalog.HasPart person.fqn U →
      U = person.fqn ∨ U = role.fqn ∨ U = "String" := by
    intro U hU
    induction hU with
    | refl => exact .inl rfl
    | @tail U V _ hpart ih =>
      obtain ⟨d, hd, p, hp, rfl⟩ := hpart
      rcases ih with rfl | rfl | rfl
      · cases find_types.2.symm.trans hd
        fin_cases hp
        · exact .inr (.inr rfl)
        · exact .inr (.inl rfl)
        · exact .inr (.inr rfl)
        · exact .inl rfl
      · cases find_types.1.symm.trans hd
        cases hp
      · have hnone : catalog.types.find? "String" = none := by decide +kernel
        cases hnone.symm.trans hd
  intro U hU
  rcases hreach U hU with rfl | rfl | rfl
  · refine ⟨by unfold Catalog.IsLeaf; decide, fun d hd henum => ?_, fun d hd p hp => ?_⟩
    · cases find_types.2.symm.trans hd
      cases henum
    · cases find_types.2.symm.trans hd
      fin_cases hp
      · exact ⟨nofun, nofun⟩
      · exact ⟨nofun, nofun⟩
      · exact ⟨fun _ => ⟨.text, .primitive (t := .string) rfl⟩, nofun⟩
      · exact ⟨nofun, fun _ _ => solid_person⟩
  · refine ⟨by unfold Catalog.IsLeaf; decide, fun d hd _ => ?_, fun d hd p hp => ?_⟩
    · cases find_types.1.symm.trans hd
      decide
    · cases find_types.1.symm.trans hd
      cases hp
  · have hnone : catalog.types.find? "String" = none := by decide +kernel
    exact ⟨by unfold Catalog.IsLeaf; decide, fun d hd => (nomatch hnone.symm.trans hd),
      fun d hd => (nomatch hnone.symm.trans hd)⟩

/-- A person without other names and a known parent. -/
def ann : Value :=
  .object [(classKey, .text person.fqn), ("name", .text "Ann"), ("role", .text "adult"),
    ("aliases", .list []), ("parent", .null)]

/-- The same person, with what there is not left out. -/
def sameAnn : Value :=
  .object [(classKey, .text person.fqn), ("role", .text "adult"), ("name", .text "Ann")]

theorem conforms_ann : Catalog.PropertyConforms catalog owner ann ∧
    Catalog.PropertyConforms catalog owner sameAnn := by
  constructor
  · refine .single rfl (.declared rfl rfl (.object find_types.2 rfl rfl (by decide) (by decide) ?_))
    intro p hp v hv
    fin_cases hp <;> cases hv
    · exact .single rfl (.primitive (t := .string) rfl rfl ⟨_, rfl⟩)
    · exact .single rfl (.declared rfl rfl (.enumeration find_types.1 rfl (by decide)))
    · exact .array rfl (by simp)
    · exact .null rfl
  · refine .single rfl (.declared rfl rfl (.object find_types.2 rfl rfl (by decide) (by decide) ?_))
    intro p hp v hv
    fin_cases hp <;> cases hv
    · exact .single rfl (.primitive (t := .string) rfl rfl ⟨_, rfl⟩)
    · exact .single rfl (.declared rfl rfl (.enumeration find_types.1 rfl (by decide)))

/-- A person is known by the text. -/
theorem same_of_written_ann : ∃ t, catalog.writeProperty {} owner ann = .ok t ∧
    catalog.writeProperty {} owner sameAnn = .ok t ∧ ann.Same sameAnn := by
  have htest : ((catalog.writeProperty {} owner ann).toOption ==
      (catalog.writeProperty {} owner sameAnn).toOption) = true := by
    decide +kernel
  have hbuilt : catalog.Built := .add .system _ _
  have hclear : catalog.Clear owner := ⟨(fun h => by cases h), fun _ h => by cases h⟩
  obtain ⟨t, u, ht, hu, hsame⟩ := Catalog.same_of_written (s := {}) hbuilt
    ⟨hclear, clearBelow_person⟩ conforms_ann.1 conforms_ann.2
  rw [ht, hu] at htest
  obtain rfl : t = u := Option.some.inj (eq_of_beq htest)
  exact ⟨t, ht, hu, hsame rfl⟩

def ages : Property where
  name := "ages"
  typeName := "Integer"
  type := "Integer"
  array := true

/-- **Whole numbers side by side** are not told apart: 1 and 23 are written as 12 and 3 are. -/
theorem not_told_ages :
    Catalog.PropertyConforms catalog ages (.list [.int 1, .int 23]) ∧
      Catalog.PropertyConforms catalog ages (.list [.int 12, .int 3]) ∧
      catalog.writeProperty {} ages (.list [.int 1, .int 23]) = .ok "123" ∧
      catalog.writeProperty {} ages (.list [.int 12, .int 3]) = .ok "123" ∧
      ¬ (Value.list [.int 1, .int 23]).Same (.list [.int 12, .int 3]) := by
  have hconforms : ∀ ns : List Int, Catalog.PropertyConforms catalog ages (.list (ns.map .int)) := by
    refine fun ns => .array rfl fun v hv => ?_
    obtain ⟨n, -, rfl⟩ := List.mem_map.mp hv
    exact .primitive (t := .integer) rfl rfl (.int n)
  refine ⟨hconforms [1, 23], hconforms [12, 3], by rfl, by rfl, fun hsame => ?_⟩
  cases hsame with
  | number hv => cases hv
  | list _ h =>
    have hfirst := h (.int 1, .int 12) (by simp)
    cases hfirst with
    | number _ _ hm hn => cases hm.trans hn.symm

end Kin

end Covenant
