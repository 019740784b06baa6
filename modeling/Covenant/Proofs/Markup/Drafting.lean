import Covenant.Proofs.Markup.Conformance
import Covenant.Proofs.Schema.Writable

/-!
Drafting what was read.

* `Markup.Follows`: what one node for a property reads another one shows.
* `Markup.Agreeing`: a level whose nodes follow the first one for their property, and whose blocks
  for single values are over no arrays.
* `Markup.Ruled.drafts`: a node lays out every value of its property.
-/

namespace Covenant

/-! ### Laying out single nodes -/

namespace Drafter

open Markup

variable {c : Drafter} {d : SchemaType} {data v : Value} {nodes : List Node} {field : String}
  {p : Property}

/-- A level is laid out when its nodes are that are not empty texts. -/
theorem exists_level {stem : String} {start : Nat}
    (h : ∀ m ∈ numbered stem nodes start, ∃ docs, c.node m.2 data d = .ok docs) :
    ∃ docs, level (c.members nodes) data d = .ok docs := by
  choose! docs hdocs using h
  have hnodes : numbered stem nodes start = (numbered stem nodes start).map id :=
    (List.map_id _).symm
  exact ⟨_, level_eq hnodes hdocs⟩

/-- A value is laid out when its members are written. -/
theorem exists_boundValue (hp : d.property? field = some p) (hv : entry data field = .ok v)
    {format : Option String} (h : Catalog.Held p
      (fun w => ∃ t, Writable.one p format w (c.catalog.writeAs c.settings w) = .ok t) v) :
    ∃ docs, c.boundValue field format data d = .ok docs := by
  obtain ⟨t, ht⟩ := Catalog.exists_writeProperty h
  obtain ⟨doc, hdoc, -⟩ := boundValue_eq hp hv ht
  exact ⟨_, hdoc⟩

/-- A choice about a property is laid out when the property has an entry. -/
theorem exists_conditional (hp : d.property? field = some p) (hv : entry data field = .ok v)
    (whenTrue whenFalse : String) : ∃ docs, conditional field whenTrue whenFalse data d = .ok docs := by
  obtain ⟨doc, hdoc, -⟩ := conditional_eq hp hv whenTrue whenFalse
  exact ⟨_, hdoc⟩

/-- A block for a single value is laid out when the level in it is, for the value. -/
theorem exists_nested {kind : BlockKind} (hkind : ∀ style, kind ≠ .list style)
    (hp : d.property? field = some p) (harray : p.array = false) (hv : entry data field = .ok v)
    {e : SchemaType} (h : Catalog.Held p (fun w => c.valueType p w = .ok e ∧
      ∃ docs, level (c.members nodes) w e = .ok docs) v) (place : Text.Position) :
    ∃ docs, c.node (.block kind field nodes place) data d = .ok docs := by
  obtain ⟨k, -, -, hnode⟩ := node_nested (c := c) hkind field nodes place
  rw [hnode]
  rcases h with ⟨-, rfl⟩ | ⟨hlist, -⟩ | ⟨-, hnull, htype, docs, hdocs⟩
  · exact ⟨_, nested_null hp hv k _⟩
  · cases harray.symm.trans hlist
  · exact ⟨_, nested_eq hp hv hnull htype hdocs k⟩

/-- A list is laid out without items if it has none. -/
theorem list_unset (hp : d.property? field = some p) (hv : entry data field = .ok v)
    (hunset : v.isSet = false) (style : ListStyle) (ms : List Member) :
    ∃ docs, c.list style field ms data d = .ok docs := by
  refine ⟨[.node .list none (some field) .null
    [("list_type", .text style.tag), ("separator", .text (style.leads c.settings).2)] []],
    Outcome.bind_eq_ok.mpr ⟨p, property_eq hp, Outcome.bind_eq_ok.mpr ⟨v, hv, ?_⟩⟩⟩
  simp only [hunset]
  rfl

/-- A list is laid out when its items are. -/
theorem exists_list (hp : d.property? field = some p) {w : Value} {ws : List Value}
    (hv : entry data field = .ok (.list (w :: ws))) {style : ListStyle} {ms : List Member}
    (hfirst : ∃ doc, c.item p (style.leads c.settings).1 ms w = .ok doc)
    (hlater : ∀ v ∈ ws, ∃ doc, c.item p (style.leads c.settings).2 ms v = .ok doc) :
    ∃ docs, c.list style field ms data d = .ok docs := by
  obtain ⟨first, hfirst⟩ := hfirst
  choose! later hlater using hlater
  obtain ⟨doc, hdoc, -⟩ := list_eq hp hv hfirst hlater
  exact ⟨_, hdoc⟩

/-- A list is laid out when each of its values is, as the first item and as another one. -/
theorem exists_items (hp : d.property? field = some p) (harray : p.array = true)
    (hv : entry data field = .ok v) {style : ListStyle} {ms : List Member}
    (h : Catalog.Held p (fun w => (∃ doc, c.item p (style.leads c.settings).1 ms w = .ok doc) ∧
      ∃ doc, c.item p (style.leads c.settings).2 ms w = .ok doc) v) :
    ∃ docs, c.list style field ms data d = .ok docs := by
  rcases h with ⟨-, rfl⟩ | ⟨-, vs, rfl, hall⟩ | ⟨hsingle, -⟩
  · exact list_unset hp hv rfl style ms
  · cases vs with
    | nil => exact list_unset hp hv rfl style ms
    | cons w ws =>
      exact exists_list hp hv (hall w (by simp)).1
        fun w' hw' => (hall w' (List.mem_cons_of_mem _ hw')).2
  · cases harray.symm.trans hsingle

end Drafter

namespace Catalog

variable {c : Catalog} {leaf : String → Value → Prop} {d : SchemaType} {T : String} {v : Value}

/-- A value of a type that is no enumeration is an object with the entries of the type. -/
theorem Typed.entries (hc : c.Built) (hd : c.types.find? d.fqn = some d) (henum : d.isEnum = false)
    (h : c.Typed leaf d.fqn v) : ∃ fields, v = .object fields ∧ c.TypedEntries leaf d fields := by
  generalize hT : d.fqn = T at h
  cases h with
  | primitive ht =>
    rw [← hT, hc.ofName_eq_none (Table.mem_names_of_find hd)] at ht
    cases ht
  | @enum d' t hd' henum' =>
    rw [← hT] at hd'
    obtain rfl := Option.some.inj (hd.symm.trans hd')
    cases henum.symm.trans henum'
  | @object d' fields hd' _ _ hclass hrequired hdeclared hlist hmember hsingle =>
    rw [← hT] at hd'
    obtain rfl := Option.some.inj (hd.symm.trans hd')
    refine ⟨fields, rfl, hclass, fun p hp v hv => ?_, hrequired, hdeclared⟩
    cases harray : p.array with
    | true =>
      obtain ⟨vs, rfl⟩ := hlist p hp harray v hv
      exact (typedAs_array harray).mpr ⟨vs, rfl, hmember p hp harray vs hv⟩
    | false => exact (typedAs_single harray).mpr (hsingle p hp harray v hv)

/-- The values of a primitive type. -/
theorem Typed.holds (hc : c.Built) {t : Primitive} (ht : Primitive.ofName? T = some t)
    (h : c.Typed leaf T v) : t.Holds v := by
  cases h with
  | primitive ht' hv => exact Option.some.inj (ht'.symm.trans ht) ▸ hv
  | enum hd =>
    rw [hc.ofName_eq_none (Table.mem_names_of_find hd)] at ht
    cases ht
  | object hd =>
    rw [hc.ofName_eq_none (Table.mem_names_of_find hd)] at ht
    cases ht

/-- Dates and amounts of money among the values of types are those that `leaf` holds of. -/
theorem Typed.plain (hc : c.Built) (h : c.Typed Formatted.Plain T v) : Formatted.Plain T v := by
  cases h with
  | @primitive _ t _ ht _ hleaf =>
    refine ⟨fun hdate => ?_, fun hmoney => ?_⟩
    · subst hdate
      exact (hleaf (Option.some.inj (ht.symm.trans rfl))).date rfl
    · subst hmoney
      cases ht
  | @enum d _ hd henum =>
    refine ⟨fun hdate => ?_, fun hmoney => ?_⟩
    · have hnone := hc.ofName_eq_none (Table.mem_names_of_find hd)
      rw [hdate] at hnone
      cases hnone
    · obtain ⟨_, hnot, _⟩ := hc.monetary_spec (hmoney ▸ hd)
      cases henum.symm.trans hnot
  | @object d _ hd _ _ _ _ _ _ _ _ hleaf =>
    refine ⟨fun hdate => ?_, fun hmoney => (hleaf hmoney).money hmoney⟩
    have hnone := hc.ofName_eq_none (Table.mem_names_of_find hd)
    rw [hdate] at hnone
    cases hnone

/-- The entry of a property among the entries of a type. -/
theorem TypedEntries.entry {fields : List (String × Value)} (h : c.TypedEntries leaf d fields)
    {p : Property} (hp : p ∈ d.properties) : ∃ v, Drafter.entry (.object fields) p.name = .ok v ∧
      Held p (c.Typed leaf p.ruleName) v := by
  refine ⟨_, rfl, ?_⟩
  cases hfind : Table.find? fields p.name with
  | none =>
    refine .inl ⟨?_, rfl⟩
    by_contra hoptional
    obtain ⟨v, hv⟩ := Table.exists_find (h.required p hp (by simpa using hoptional))
    cases hfind.symm.trans hv
  | some v => exact (h.property p hp v hfind).held

end Catalog

namespace Markup

/-! ### Templates whose nodes agree -/

/-- The format in which a node shows the property that it binds. -/
def Node.format? : Node → Option String
  | .binding _ format _ => format
  | .formatted _ format _ => some format
  | _ => none

/-- Amounts of money are shown by the codes of their currencies. -/
def ShowsCodes (c : Compiler) (d : SchemaType) (n : Node) : Prop :=
  ∀ f, (.monetary, f) ∈ c.formatsOf n d → ∀ m, MonetaryFormat.ofString f = .ok m → m.style = .code

/-- Blocks read values as a whole: none is over an amount of money, and what identifies the values
that they read is a single text. -/
def BlocksWhole (c : Catalog) (d : SchemaType) (nodes : List Node) : Prop :=
  ∀ kind field nested place p, Node.block kind field nested place ∈ nodes →
    d.property? field = some p → p.type ≠ Monetary.typeName ∧
      ∀ e, c.types.find? p.type = some e → SingleIdentifier e

/-- **What one node reads another one shows**: it does so in the same way, or both have formats and
the first reads amounts of money by symbols, or the second shows them by codes. -/
inductive Follows (c : Compiler) (d : SchemaType) (n n' : Node) : Prop where
  | alike (h : c.drafter.node n' = c.drafter.node n)
  | symbols {f f' : String} (hf : n.format? = some f) (hf' : n'.format? = some f')
      (hsymbol : ∀ m, MonetaryFormat.ofString f = .ok m → m.style = .symbol)
  | codes (hwhole : Everywhere c.catalog (BlocksWhole c.catalog) d [n])
      (hcodes : ShowsCodes c d n')

/-- **A level whose nodes agree**: blocks for single values are over no arrays, a property whose
values the template makes up is no date, and what the first node for any other property reads is
shown by all nodes for it. -/
structure Agreeing (c : Compiler) (d : SchemaType) (nodes : List Node) : Prop where
  single : ∀ kind field nested place p, Node.block kind field nested place ∈ nodes →
    (∀ style, kind ≠ .list style) → d.property? field = some p → p.array = false
  identifier : ∀ n ∈ nodes, ∀ field p, n.field? = some field → d.identifier? = some field →
    d.property? field = some p → p.ruleName ≠ "DateTime"
  shared : ∀ n' ∈ nodes, ∀ field n, n'.field? = some field → d.identifier? ≠ some field →
    nodes.find? (fun n => n.field? == some field) = some n → Follows c d n n'

section

variable {c : Compiler} {s : RuleSet} {ctx : ReadingContext} {d : SchemaType}

/-- A block shows amounts of money as the nodes in it do. -/
theorem ShowsCodes.nested {e : SchemaType} {kind : BlockKind} {field : String} {nodes : List Node}
    {place : Text.Position} (h : ShowsCodes c d (.block kind field nodes place)) {p : Property}
    (hp : d.property? field = some p) (he : c.catalog.types.find? p.type = some e) {n : Node}
    (hn : n ∈ nodes) : ShowsCodes c e n := by
  intro f hf
  refine h f ?_
  rw [Compiler.formatsOf_block hp he]
  exact Compiler.formatsOf_subset hn hf

/-! ### Every value of a type -/

/-- **A node lays out every value** of the property that it binds. -/
def Drafts (c : Compiler) (d : SchemaType) (n : Node) : Prop :=
  ∀ {level}, n ∈ level → Everywhere c.catalog (Agreeing c) d level → ShowsCodes c d n → ∀ {data},
    (∀ field p, n.field? = some field → d.property? field = some p →
      ∃ v, Drafter.entry data field = .ok v ∧
        Catalog.Held p (c.catalog.Typed Formatted.Plain p.ruleName) v) →
    ∃ docs, c.drafter.node n data d = .ok docs

/-- A level with a text in front of it is laid out when the nodes of the level are. -/
theorem exists_leadLevel {start stem : String} {level led : List Node} {data : Value}
    (hled : lead start level = .ok led)
    (h : ∀ m ∈ numbered stem led, m.2 ∈ level → ∃ docs, c.drafter.node m.2 data d = .ok docs) :
    ∃ docs, Drafter.level (c.drafter.members led) data d = .ok docs := by
  refine @Drafter.exists_level _ _ _ _ stem 0 fun m hm => ?_
  rcases mem_of_lead hled (mem_of_numbered hm).1 with hn | ⟨body, last, place, hn⟩
  · exact h m hm hn
  · rw [hn]
    exact ⟨_, rfl⟩

/-- A value of the type of a property is written where the property is bound. -/
theorem Target.write (hc : c.catalog.Built) {F : DateFormat}
    (hdate : DateFormat.ofString c.settings.dateFormat = .ok F) {p : Property}
    {format : Option String} {target : String} (h : Target p format target)
    (hcodes : ∀ f, format = some f → Formatted.ofType? p.type = some .monetary →
      ∀ m, MonetaryFormat.ofString f = .ok m → m.style = .code) {v : Value}
    (hv : c.catalog.Typed Formatted.Plain p.ruleName v) :
    ∃ t, Writable.one p format v (c.catalog.writeAs c.settings v) = .ok t := by
  cases format with
  | none => exact Catalog.exists_one (hv.write hc hdate)
  | some f =>
    obtain ⟨hrelationship, k, r, hk, hrule, -⟩ := h
    have hname : p.ruleName = p.type := by simp [Property.ruleName, hrelationship]
    rw [hname] at hv
    have hdouble : k = .amount → ∃ x, v = .double x := by
      rintro rfl
      have htype : p.type = "Double" := by simpa [Formatted.ofType_eq_some_iff] using hk
      rw [htype] at hv
      exact hv.holds hc rfl
    obtain ⟨t, ht⟩ := Formatted.write_of_plain hk hrule (hv.plain hc) hdouble fun hmoney =>
      hcodes f rfl (hmoney ▸ hk)
    refine ⟨t, ?_⟩
    rw [Writable.one, if_neg (by simp [hrelationship])]
    simpa only [Catalog.writeFormatted, hk] using ht

/-- A block lays out every value of the type that it is for. -/
theorem level_drafts (hc : c.catalog.Built) {e : SchemaType} {p : Property}
    (he : LaidOut c.catalog p e) {start stem : String} {nodes led : List Node}
    (hled : lead start nodes = .ok led) (hagree : Everywhere c.catalog (Agreeing c) e nodes)
    (hcodes : ∀ n ∈ nodes, ShowsCodes c e n) (hdrafts : ∀ m ∈ numbered stem led, Drafts c e m.2)
    {v : Value} (h : c.catalog.Typed Formatted.Plain p.ruleName v) :
    c.drafter.valueType p v = .ok e ∧
      ∃ docs, Drafter.level (c.drafter.members led) v e = .ok docs := by
  obtain ⟨hname, hefind⟩ := he.spec hc
  rw [hname] at h
  obtain ⟨fields, rfl, hentries⟩ := h.entries hc hefind he.enum
  refine ⟨Drafter.valueType_eq hefind hentries.type,
    @exists_leadLevel _ _ _ stem _ _ _ hled fun m hm hn => ?_⟩
  refine hdrafts m hm hn hagree (hcodes _ hn) fun field q _ hq => ?_
  have hname : q.name = field := by simpa using List.find?_some hq
  exact hname ▸ hentries.entry (Compiler.mem_of_property hq)

/-- **A ruled node lays out every value** of the property that it binds, if it shows currencies by
their codes. -/
theorem Ruled.drafts (hc : c.catalog.Built) {F : DateFormat}
    (hdate : DateFormat.ofString c.settings.dateFormat = .ok F) {name : String} {n : Node}
    (h : Ruled c s d name n) : Drafts c d n := by
  induction h with
  | text => exact fun _ _ _ _ _ => ⟨_, rfl⟩
  | expression => exact fun _ _ _ _ _ => ⟨_, rfl⟩
  | binding hp htarget =>
    intro level _ _ hcodes data hheld
    obtain ⟨v, hv, hheld⟩ := hheld _ _ rfl hp
    refine Drafter.exists_boundValue hp hv (hheld.mono fun w => htarget.write hc hdate ?_)
    rintro f rfl hk
    exact hcodes f (by simp [Compiler.formatsOf, Compiler.boundFormat, hp, hk])
  | formatted hp htarget =>
    intro level _ _ hcodes data hheld
    obtain ⟨v, hv, hheld⟩ := hheld _ _ rfl hp
    refine Drafter.exists_boundValue hp hv (hheld.mono fun w => htarget.write hc hdate ?_)
    intro f hf hk
    cases hf
    exact hcodes _ (by simp [Compiler.formatsOf, Compiler.boundFormat, hp, hk])
  | shown hp | choice hp =>
    intro level _ _ _ data hheld
    obtain ⟨v, hv, -⟩ := hheld _ _ rfl hp
    exact Drafter.exists_conditional hp hv _ _
  | @nested d e name field kind nodes place p hkind hp he hrule hlevel hnodes ih =>
    intro level hn hagree hcodes data hheld
    obtain ⟨v, hv, hheld⟩ := hheld _ _ rfl hp
    have harray := hagree.here.single kind field nodes place p hn hkind hp
    exact Drafter.exists_nested hkind hp harray hv (hheld.mono fun w =>
      level_drafts hc he (rfl : lead "" nodes = .ok nodes) (hagree.block hn hp he.found)
        (fun m => hcodes.nested hp he.found) ih) place
  | @list d e name field style nodes first later place p hp harray he hrule hfirst hlater
      hfirstLevel hlaterLevel hfirsts hlaters ihFirst ihLater =>
    intro level hn hagree hcodes data hheld
    obtain ⟨v, hv, hheld⟩ := hheld _ _ rfl hp
    have hitem : ∀ {start stem led}, lead start nodes = .ok led →
        (∀ m ∈ numbered stem led, Drafts c e m.2) → ∀ w,
        c.catalog.Typed Formatted.Plain p.ruleName w →
        ∃ doc, c.drafter.item p start (c.drafter.members nodes) w = .ok doc := by
      intro start stem led hled ih w hw
      obtain ⟨htype, docs, hdocs⟩ := level_drafts hc he hled (hagree.block hn hp he.found)
        (fun m => hcodes.nested hp he.found) ih hw
      exact ⟨_, Drafter.item_eq htype hled hdocs⟩
    exact Drafter.exists_items hp harray hv (hheld.mono fun w hw =>
      ⟨hitem hfirst ihFirst w hw, hitem hlater ihLater w hw⟩)

end

end Markup

end Covenant
