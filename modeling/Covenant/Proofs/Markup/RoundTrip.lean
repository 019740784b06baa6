import Covenant.Proofs.Markup.Layout
import Covenant.Proofs.Markup.Source
import Covenant.Proofs.Schema.Written

/-!
Data that are drafted and read back.

* `Markup.Neat`: templates that bind each property at most once in a level, with blocks only
  for single values, and with texts as identifiers.
* `Markup.Restored`: the doubles, dates and amounts of money in a derivation are written, in
  formats or not, as texts that are read as the same values.
* `Markup.Back`: a node lays out what it has read as a text that it reads again;
  `Markup.level_back`: so does a level when its nodes do.
* `Markup.Compiler.read_draft`: what the rules of a template have read is drafted as a text
  that they read as the same data.
-/

namespace Covenant.Markup

/-! ### Templates -/

/-- **Neat templates.** In every level a property is bound at most once, a clause or a value
with a level of its own is no array, and what identifies values is a text. -/
inductive Neat (c : Catalog) : SchemaType → List Node → Prop where
  | level {d : SchemaType} {nodes : List Node} (once : (nodes.filterMap Node.field?).Nodup)
      (identifier : ∀ p ∈ d.properties, p.identifier = true → p.type = "String")
      (single : ∀ kind field nested place p, .block kind field nested place ∈ nodes →
        (∀ style, kind ≠ .list style) → d.property? field = some p → p.array = false)
      (below : ∀ kind field nested place p e, .block kind field nested place ∈ nodes →
        d.property? field = some p → c.types.find? p.type = some e → Neat c e nested) :
      Neat c d nodes

def NeatBlock (c : Catalog) (d : SchemaType) (n : Node) : Prop :=
  ∀ kind field nested place p e, n = .block kind field nested place →
    d.property? field = some p → c.types.find? p.type = some e →
      ((∀ style, kind ≠ .list style) → p.array = false) ∧ Neat c e nested

/-- The values that identify instances of a type are texts. -/
def TextIdentifier (d : SchemaType) : Prop :=
  ∀ p ∈ d.properties, p.identifier = true → p.type = "String"

theorem Neat.block {c : Catalog} {d : SchemaType} {nodes : List Node} (h : Neat c d nodes)
    {n : Node} (hn : n ∈ nodes) : NeatBlock c d n := by
  rintro kind field nested place p e rfl hp he
  cases h with
  | level _ _ single below =>
    exact ⟨fun hkind => single kind field nested place p hn hkind hp,
      below kind field nested place p e hn hp he⟩

theorem Neat.textIdentifier {c : Catalog} {d : SchemaType} {nodes : List Node}
    (h : Neat c d nodes) : TextIdentifier d := by
  cases h with
  | level _ identifier _ _ => exact identifier

theorem Neat.once {c : Catalog} {d : SchemaType} {nodes : List Node} (h : Neat c d nodes) :
    (nodes.filterMap Node.field?).Nodup := by
  cases h with
  | level once _ _ _ => exact once

/-! ### Leaves -/

/-- What a derivation reads by the rules of formats is written in them as a text that is read
as the same value. -/
def FormatsWritten (set : RuleSet) (ctx : ReadingContext) (formats : List (Formatted × String))
    (e : Derivation) : Prop :=
  ∀ e' ∈ e.within, ∀ k f, (k, f) ∈ formats → ∀ cs v, Derives set (.rule (k.ruleName f)) cs e' →
    e'.evaluate set ctx = .ok v → ∃ text, k.write v f = .ok text ∧
      Reads set ctx (.rule (k.ruleName f)) text.toList v

/-- **The leaves of a derivation are restored**: its doubles, dates and amounts of money are
written as texts that are read as the same values. -/
structure Restored (c : Compiler) (set : RuleSet) (ctx : ReadingContext)
    (formats : List (Formatted × String)) (e : Derivation) : Prop where
  leaves : c.catalog.LeavesWritten c.settings set ctx e
  formats : FormatsWritten set ctx formats e

section

variable {c : Compiler} {set : RuleSet} {ctx : ReadingContext}

theorem Restored.mono {formats formats' : List (Formatted × String)} {e e' : Derivation}
    (h : Restored c set ctx formats e) (he : e'.within ⊆ e.within) (hformats : formats' ⊆ formats) :
    Restored c set ctx formats' e' :=
  ⟨fun x hx => h.leaves x (he hx), fun x hx k f hf => h.formats x (he hx) k f (hformats hf)⟩

theorem Compiler.formatsOf_subset {d : SchemaType} {nodes : List Node} {n : Node} (hn : n ∈ nodes) :
    c.formatsOf n d ⊆ c.formats nodes d := by
  induction nodes with
  | nil => cases hn
  | cons m ms ih =>
    rw [Compiler.formats]
    rcases List.mem_cons.mp hn with rfl | hn
    · exact List.subset_append_left _ _
    · exact List.subset_append_of_subset_right _ (ih hn)

/-! ### Nodes -/

/-- **A node lays out what it has read** as a text that it reads again, with the same value
unless it binds the identifier: that is told by the rule of its level. -/
def Back (c : Compiler) (set : RuleSet) (ctx : ReadingContext) (d : SchemaType) (name : String)
    (n : Node) : Prop :=
  TextIdentifier d → NeatBlock c.catalog d n → ∀ cs e w, Derives set (.rule name) cs e →
    e.evaluate set ctx = .ok w → Restored c set ctx (c.formatsOf n d) e → ∀ data id,
    (∀ f, n.field? = some f →
      Drafter.entry data f = .ok (if d.identifier? = some f then .text id else w)) →
    ∃ docs other, c.drafter.node n data d = .ok docs ∧
      Reads set ctx (.rule name) (Document.run docs) other ∧
      ∀ f, n.field? = some f → d.identifier? ≠ some f → other = w

theorem Ruled.property {d : SchemaType} {name field : String} {n : Node}
    (h : Ruled c set d name n) (hfield : n.field? = some field) : ∃ p, d.property? field = some p := by
  cases h <;> cases hfield <;> exact ⟨_, ‹_›⟩

/-- What identifies the instances of a type is a text. -/
theorem TextIdentifier.type_eq {d : SchemaType} (h : TextIdentifier d)
    (hnames : (d.properties.map Property.name).Nodup) {field : String} {p : Property}
    (hp : d.property? field = some p) (hidentifier : d.identifier? = some field) :
    p.type = "String" := by
  obtain ⟨q, hq, hname⟩ := Option.map_eq_some_iff.mp hidentifier
  have hmem := List.mem_of_find?_eq_some hq
  have hpname : p.name = field := by simpa using List.find?_some hp
  obtain rfl : p = q := List.inj_on_of_nodup_map hnames (List.mem_of_find?_eq_some hp) hmem
    (hpname.trans hname.symm)
  exact h p hmem (List.find?_some hq)

section Nodes

variable {d : SchemaType} {name field : String} {place : Text.Position}

theorem back_text {body : String} {last : Bool}
    (hrule : set.Holds (Compiler.textRule body name)) (data : Value) :
    ∃ docs other, c.drafter.node (.text body last place) data d = .ok docs ∧
      Reads set ctx (.rule name) (Document.run docs) other := by
  refine ⟨_, .text body, rfl, ?_⟩
  rw [Document.run_text]
  exact reads_textRule hrule

/-- An expression is laid out as what is in its place, which is some text. -/
theorem back_expression (hset : c.catalog.TypedRules set) {body : String}
    (hrule : set.Holds (referenceRule name anyRule ("expression " ++ body) .one)) :
    Back c set ctx d name (.expression body place) := by
  intro _ _ cs e w h hv _ data id _
  obtain ⟨e', he', _, _⟩ := reference_value hrule h hv
  obtain ⟨r, _, _, _, hfind, _⟩ := derives_rule_iff.mp he'
  obtain rfl := hset.any hfind
  refine ⟨_, _, rfl, reads_reference hrule (Catalog.reads_patternRule hfind
    (Symbol.accepts_any ?_) rfl), fun f hf => by cases hf⟩
  simp [Document.run, @Document.plainText_leaf .formula rfl]

/-- A node that depends on a truth value is laid out as the text for it. -/
theorem back_branch (hkeys : (classKey :: d.properties.map Property.name).Nodup) {p : Property}
    (hp : d.property? field = some p) (hboolean : p.type = "Boolean") {whenTrue whenFalse : String}
    (htexts : whenTrue ≠ whenFalse)
    (hrule : set.Holds (branchRule (d.fqn ++ "." ++ field) whenTrue whenFalse name)) {n : Node}
    (hn : n.field? = some field)
    (hnode : ∀ data, c.drafter.node n data d = Drafter.conditional field whenTrue whenFalse data d) :
    Back c set ctx d name n := by
  intro hidentifier _ cs e w h hv _ data id hentry
  obtain ⟨b, rfl, _⟩ := (reads_branch_iff htexts hrule).mp ⟨e, h, hv⟩
  have hvalue : Drafter.entry data field = .ok (.bool b) := by
    rw [hentry field hn, if_neg]
    intro hkey
    have htype := hidentifier.type_eq (List.nodup_cons.mp hkeys).2 hp hkey
    rw [hboolean] at htype
    exact absurd htype (by decide)
  obtain ⟨doc, hdoc, hrun⟩ := Drafter.conditional_eq hp hvalue whenTrue whenFalse
  refine ⟨[doc], .bool b, (hnode data).trans hdoc, ?_, fun _ _ _ => rfl⟩
  exact (reads_branch_iff htexts hrule).mpr ⟨b, rfl, hrun⟩

/-- One value that a binding has read is written, in the format if there is one. -/
theorem written_of_target (hc : c.catalog.Built) (hset : c.catalog.TypedRules set)
    (hapart : c.catalog.EnumsApart) (hd : c.catalog.types.find? d.fqn = some d) {p : Property}
    (hp : p ∈ d.properties) {format : Option String} {target : String}
    (htarget : Target p format target) {formats : List (Formatted × String)}
    (hformats : ∀ f k, format = some f → Formatted.ofType? p.type = some k → (k, f) ∈ formats)
    {e : Derivation} (hrestored : Restored c set ctx formats e) {cs : List Char} {v : Value}
    (h : Derives set (.rule target) cs e) (hv : e.evaluate set ctx = .ok v) :
    v.isNull = false ∧
      ∃ text, Writable.one p format v (c.catalog.writeAs c.settings v) = .ok text ∧
        Reads set ctx (.rule target) text.toList v := by
  cases format with
  | none =>
    obtain rfl : target = p.ruleName := htarget
    exact Catalog.item_inverted hset
      (hset.inverted hc hapart (hc.isType_ruleName hd hp) hrestored.leaves) h hv
  | some f =>
    obtain ⟨hrelationship, k, r, hk, _, rfl⟩ := htarget
    obtain ⟨text, hwrite, hread⟩ :=
      hrestored.formats e e.self_mem_within k f (hformats f k rfl hk) cs v h hv
    refine ⟨Catalog.not_null_of_format hwrite, text, ?_, hread⟩
    simp [Writable.one, hrelationship, Catalog.writeFormatted, hk, hwrite]

/-- What identifies a value is laid out as the text that the rule of the level gives, whatever has
been read. -/
theorem back_identifier (hset : c.catalog.TypedRules set) (hcheck : set.check = .ok ()) {p : Property}
    (hp : d.property? field = some p) (htype : p.type = "String") {format : Option String}
    {target comment : String} (htarget : Target p format target)
    (hrule : set.Holds (referenceRule name target comment p.cardinality)) {data : Value}
    {id : String} (hvalue : Drafter.entry data field = .ok (.text id)) :
    ∃ docs other, c.drafter.boundValue field format data d = .ok docs ∧
      Reads set ctx (.rule name) (Document.run docs) other := by
  have hformat : format = none := by
    cases format with
    | none => rfl
    | some f =>
      obtain ⟨_, k, _, hk, _⟩ := htarget
      rw [htype] at hk
      cases hk
  subst hformat
  obtain rfl : target = p.ruleName := htarget
  have hname : p.ruleName = "String" := by
    rw [Property.ruleName, htype]
    exact ite_self _
  obtain ⟨r, hfind⟩ := RuleSet.exists_of_references hcheck (List.mem_of_find?_eq_some hrule)
    (x := "String") (by simp [referenceRule, Rule.references, Symbol.rule, hname])
  obtain ⟨text, other, hwrite, hread⟩ : ∃ text other,
      c.catalog.writeProperty c.settings p (.text id) none = .ok text ∧
        Reads set ctx (.rule p.ruleName p.cardinality) text.toList other :=
    hset.text_written hfind htype id
  obtain ⟨doc, hdoc, hrun⟩ := Drafter.boundValue_eq (c := c.drafter) hp hvalue hwrite
  exact ⟨[doc], other, hdoc, hrun ▸ reads_reference hrule hread⟩

/-- **A binding is laid out** as what is written for its value. -/
theorem back_bound (hc : c.catalog.Built) (hset : c.catalog.TypedRules set)
    (hapart : c.catalog.EnumsApart) (hcheck : set.check = .ok ())
    (hd : c.catalog.types.find? d.fqn = some d) {p : Property}
    (hp : d.property? field = some p) {format : Option String} {target : String}
    (htarget : Target p format target)
    (hrule : set.Holds (referenceRule name target (d.fqn ++ "." ++ field) p.cardinality)) {n : Node}
    (hn : n.field? = some field)
    (hnode : ∀ data, c.drafter.node n data d = c.drafter.boundValue field format data d)
    (hformats : ∀ f k, format = some f → Formatted.ofType? p.type = some k →
      (k, f) ∈ c.formatsOf n d) : Back c set ctx d name n := by
  intro hidentifier _ cs e w h hv hrestored data id hentry
  obtain ⟨e', he', hinside, hw⟩ := reference_value hrule h hv
  have hmem : p ∈ d.properties := Compiler.mem_of_property hp
  by_cases hkey : d.identifier? = some field
  · have htype := hidentifier.type_eq (List.nodup_cons.mp (hc.nodup_keys hd)).2 hp hkey
    have hvalue : Drafter.entry data field = .ok (.text id) := by rw [hentry field hn, if_pos hkey]
    obtain ⟨docs, other, hdocs, hread⟩ :=
      back_identifier hset hcheck hp htype htarget hrule hvalue
    refine ⟨docs, other, (hnode data).trans hdocs, hread, fun f hf hne => ?_⟩
    rw [hn, Option.some.injEq] at hf
    exact absurd (hf ▸ hkey) hne
  · have hvalue : Drafter.entry data field = .ok w := by rw [hentry field hn, if_neg hkey]
    have hwithin : e'.within ⊆ e.within := List.Subset.trans hinside e.inside_subset_within
    obtain ⟨text, hwrite, hread⟩ := Catalog.property_written (fun x hx _ _ =>
      written_of_target hc hset hapart hd hmem htarget hformats
        (hrestored.mono (List.Subset.trans (Derivation.within_subset_of_mem hx) hwithin)
          (List.Subset.refl _))) he' hw
    obtain ⟨doc, hdoc, hrun⟩ := Drafter.boundValue_eq (c := c.drafter) hp hvalue hwrite
    refine ⟨[doc], w, (hnode data).trans hdoc, ?_, fun _ _ _ => rfl⟩
    rw [hrun]
    exact reads_reference hrule hread

end Nodes

/-! ### Levels -/

/-- **A level lays out what it has read** as a text that it reads again as the same value. -/
theorem level_back (hc : c.catalog.Built) {d : SchemaType}
    (hd : c.catalog.types.find? d.fqn = some d) {level nodes : List Node} {start stem : String}
    (hneat : Neat c.catalog d level) (hled : lead start level = .ok nodes)
    (hlevel : HasLevel set d stem nodes)
    (hruled : ∀ m ∈ numbered stem nodes, Ruled c set d m.1 m.2)
    (hback : ∀ m ∈ numbered stem nodes, Back c set ctx d m.1 m.2) {cs : List Char} {e : Derivation}
    {v : Value} (h : Derives set (.rule stem) cs e) (hv : e.evaluate set ctx = .ok v)
    (hrestored : Restored c set ctx (c.formats level d) e) :
    (∃ fields, v = .object fields ∧ Table.find? fields classKey = some (.text d.fqn)) ∧
      ∃ docs, Drafter.level (c.drafter.members nodes) v d = .ok docs ∧
        Reads set ctx (.rule stem) (Document.run docs) v := by
  obtain ⟨id, hrule⟩ := hlevel.rule
  have hkeys := hc.nodup_keys hd
  obtain ⟨es, hes, rfl, hparts⟩ := level_value hkeys hrule h hv
  have hmem : ∀ x ∈ es, x.1 ∈ numbered stem nodes := fun x hx => hes ▸ List.mem_map_of_mem hx
  have honce : (es.filterMap fun x => x.1.2.field?).Nodup := by
    have hfields := fields_numbered stem nodes 0
    rw [hes, List.filterMap_map, fields_lead hled] at hfields
    exact hfields ▸ hneat.once
  have hentry : ∀ x ∈ es, ∀ f, x.1.2.field? = some f →
      Drafter.entry (.object (levelFields d id (es.map fun x => (x.1.2, x.2)))) f =
        .ok (if d.identifier? = some f then .text id else x.2) := by
    intro x hx f hf
    obtain ⟨p, hp⟩ := (hruled x.1 (hmem x hx)).property hf
    exact Drafter.entry_levelFields hkeys id hp (boundValue_of_mem honce hx hf)
  refine ⟨⟨_, rfl, class_levelFields hkeys id _⟩, ?_⟩
  have hnodes : ∀ x ∈ es, ∃ docs other, c.drafter.node x.1.2
      (.object (levelFields d id (es.map fun x => (x.1.2, x.2)))) d = .ok docs ∧
      Reads set ctx (.rule x.1.1) (Document.run docs) other ∧
      ∀ f, x.1.2.field? = some f → d.identifier? ≠ some f → other = x.2 := by
    intro x hx
    obtain ⟨cs, e', he', hinside, hw⟩ := hparts x hx
    have hwithin : e'.within ⊆ e.within := List.Subset.trans hinside e.inside_subset_within
    rcases mem_of_lead hled (mem_of_numbered (hmem x hx)).1 with hn | ⟨body, last, place, hn⟩
    · exact hback x.1 (hmem x hx) hneat.textIdentifier (hneat.block hn) cs e' x.2 he' hw
        (hrestored.mono hwithin (Compiler.formatsOf_subset hn)) _ id (hentry x hx)
    · have hrule' := hruled x.1 (hmem x hx)
      rw [hn] at hrule' ⊢
      cases hrule' with
      | text hrule' =>
        obtain ⟨docs, other, hdocs, hread⟩ := @back_text c set ctx d _ place _ last hrule'
          (.object (levelFields d id (es.map fun x => (x.1.2, x.2))))
        exact ⟨docs, other, hdocs, hread, fun f hf => by cases hf⟩
  choose! docs other hdocs hreads hsame using hnodes
  refine ⟨es.flatMap docs, Drafter.level_eq hes hdocs, ?_⟩
  have hread := reads_level hkeys hrule hes hreads
  rw [levelFields_congr id hsame] at hread
  rwa [Document.run, List.flatMap_assoc]

/-! ### Blocks -/

/-- What blocks for a property lay out are values of the type that the property has. -/
theorem LaidOut.spec {c : Catalog} (hc : c.Built) {p : Property} {e : SchemaType}
    (h : LaidOut c p e) : p.ruleName = e.fqn ∧ c.types.find? e.fqn = some e := by
  obtain ⟨_, hfqn⟩ := Catalog.mem_of_find_fqn hc.sound.types h.found
  refine ⟨?_, hfqn ▸ h.found⟩
  rw [Property.ruleName, h.relationship, hfqn]
  rfl

/-- A block does not bind the identifier. -/
theorem LaidOut.not_identifier {d e : SchemaType} {field : String} {p : Property}
    (he : LaidOut c.catalog p e) (hidentifier : TextIdentifier d)
    (hnames : (d.properties.map Property.name).Nodup) (hp : d.property? field = some p) :
    d.identifier? ≠ some field := by
  intro hkey
  have htype := hidentifier.type_eq hnames hp hkey
  have hprimitive := he.primitive
  rw [Property.isPrimitive, htype] at hprimitive
  cases hprimitive

/-- An item of a list lays out what it has read as a text that it reads again. -/
theorem item_back (hc : c.catalog.Built) {e : SchemaType}
    (he : c.catalog.types.find? e.fqn = some e) (p : Property) {nodes led : List Node}
    {start stem : String} (hneat : Neat c.catalog e nodes) (hled : lead start nodes = .ok led)
    (hlevel : HasLevel set e stem led) (hruled : ∀ m ∈ numbered stem led, Ruled c set e m.1 m.2)
    (hback : ∀ m ∈ numbered stem led, Back c set ctx e m.1 m.2) {cs : List Char} {x : Derivation}
    {v : Value} (h : Derives set (.rule stem) cs x) (hv : x.evaluate set ctx = .ok v)
    (hrestored : Restored c set ctx (c.formats nodes e) x) :
    ∃ doc, c.drafter.item p start (c.drafter.members nodes) v = .ok doc ∧
      Reads set ctx (.rule stem) doc.plainText.toList v := by
  obtain ⟨⟨fields, rfl, hclass⟩, docs, hdocs, hread⟩ :=
    level_back hc he hneat hled hlevel hruled hback h hv hrestored
  refine ⟨_, Drafter.item_eq (Drafter.valueType_eq he hclass) hled hdocs, ?_⟩
  rwa [@Document.plainText_inner .listItem rfl (by decide)]

/-- **A block that is no list lays out what it has read**: nothing, or the level of its value. -/
theorem back_nested (hc : c.catalog.Built) {d : SchemaType} (hd : c.catalog.types.find? d.fqn = some d)
    {kind : BlockKind} (hkind : ∀ style, kind ≠ .list style) {field : String} {p : Property}
    (hp : d.property? field = some p) {e : SchemaType} (he : LaidOut c.catalog p e)
    {name comment : String} (hrule : set.Holds (referenceRule name field comment p.cardinality))
    {nodes : List Node} (hlevel : HasLevel set e field nodes)
    (hruled : ∀ m ∈ numbered field nodes, Ruled c set e m.1 m.2)
    (hback : ∀ m ∈ numbered field nodes, Back c set ctx e m.1 m.2) (place : Text.Position) :
    Back c set ctx d name (.block kind field nodes place) := by
  intro hidentifier hblock cs x w h hv hrestored data id hentry
  obtain ⟨hsingle, hneat⟩ := hblock kind field nodes place p e rfl hp he.found
  obtain ⟨-, hefind⟩ := he.spec hc
  obtain ⟨x', hx', hinside, hw⟩ := reference_value hrule h hv
  have hvalue : Drafter.entry data field = .ok w := by
    rw [hentry field rfl, if_neg (he.not_identifier hidentifier
      (List.nodup_cons.mp (hc.nodup_keys hd)).2 hp)]
  obtain ⟨k, hleaf, hdocument, hnode⟩ := Drafter.node_nested (c := c.drafter) hkind field nodes place
  rw [hnode]
  rcases Catalog.derives_cardinality hx' hw with ⟨harray, _⟩ | ⟨harray, hoptional, rfl, rfl⟩ |
    ⟨harray, hx'⟩
  · exact absurd (hsingle hkind) (by simp [harray])
  · refine ⟨_, .null, Drafter.nested_null hp hvalue k _, ?_, fun _ _ _ => rfl⟩
    rw [Document.run, List.flatMap_singleton, Document.plainText_inner hleaf hdocument]
    refine reads_reference hrule (reads_absent ?_)
    simp [Symbol.rule, Property.cardinality, harray, hoptional]
  · obtain ⟨⟨fields, rfl, hclass⟩, docs, hdocs, hread⟩ := level_back hc hefind hneat
      (rfl : lead "" _ = .ok _) hlevel hruled hback hx' hw
      (hrestored.mono (List.Subset.trans hinside x.inside_subset_within)
        (Compiler.formatsOf_block hp he.found ▸ List.Subset.refl _))
    refine ⟨_, _, Drafter.nested_eq hp hvalue rfl (Drafter.valueType_eq hefind hclass) hdocs k, ?_,
      fun _ _ _ => rfl⟩
    rw [Document.run, List.flatMap_singleton, Document.plainText_inner hleaf hdocument]
    exact reads_reference hrule (Catalog.reads_cardinality harray hread)

/-- **A list lays out what it has read**: its first item and the others. -/
theorem back_list (hc : c.catalog.Built) {d : SchemaType} (hd : c.catalog.types.find? d.fqn = some d)
    {style : ListStyle} {field : String} {p : Property} (hp : d.property? field = some p)
    {e : SchemaType} (he : LaidOut c.catalog p e) {name comment : String}
    (hrule : set.Holds (itemsRule name (field ++ "First") field comment))
    {nodes first later : List Node} (hfirst : lead (style.leads c.settings).1 nodes = .ok first)
    (hlater : lead (style.leads c.settings).2 nodes = .ok later)
    (hfirstLevel : HasLevel set e (field ++ "First") first)
    (hlaterLevel : HasLevel set e field later)
    (hfirsts : ∀ m ∈ numbered (field ++ "First") first, Ruled c set e m.1 m.2)
    (hlaters : ∀ m ∈ numbered field later, Ruled c set e m.1 m.2)
    (hbackFirst : ∀ m ∈ numbered (field ++ "First") first, Back c set ctx e m.1 m.2)
    (hbackLater : ∀ m ∈ numbered field later, Back c set ctx e m.1 m.2) (place : Text.Position) :
    Back c set ctx d name (.block (.list style) field nodes place) := by
  intro hidentifier hblock cs x w h hv hrestored data id hentry
  obtain ⟨_, hneat⟩ := hblock (.list style) field nodes place p e rfl hp he.found
  obtain ⟨-, hefind⟩ := he.spec hc
  have hvalue : Drafter.entry data field = .ok w := by
    rw [hentry field rfl, if_neg (he.not_identifier hidentifier
      (List.nodup_cons.mp (hc.nodup_keys hd)).2 hp)]
  have hwithin : ∀ {x' : Derivation}, x'.within ⊆ x.inside →
      Restored c set ctx (c.formats nodes e) x' := fun hinside =>
    hrestored.mono (List.Subset.trans hinside x.inside_subset_within)
      (Compiler.formatsOf_block hp he.found ▸ List.Subset.refl _)
  obtain ⟨w₁, ws, rfl, ⟨_, x₁, hx₁, hin₁, hw₁⟩, hrest⟩ := items_read (first_ne field) hrule h hv
  obtain ⟨doc, hdoc, hread⟩ := item_back hc hefind p hneat hfirst hfirstLevel hfirsts hbackFirst
    hx₁ hw₁ (hwithin hin₁)
  have hothers : ∀ v ∈ ws, ∃ doc, c.drafter.item p (style.leads c.settings).2
      (c.drafter.members nodes) v = .ok doc ∧
      Reads set ctx (.rule field) doc.plainText.toList v := by
    intro v hv
    obtain ⟨_, x', hx', hin, hvalue⟩ := hrest v hv
    exact item_back hc hefind p hneat hlater hlaterLevel hlaters hbackLater hx' hvalue (hwithin hin)
  choose! later hlaterDoc hlaterRead using hothers
  obtain ⟨doc', hdoc', hrun⟩ := Drafter.list_eq (c := c.drafter) hp hvalue hdoc hlaterDoc
  refine ⟨[doc'], _, hdoc', ?_, fun _ _ _ => rfl⟩
  have hrest : List.Forall₂ (Reads set ctx (.rule field))
      (ws.map fun v => (later v).plainText.toList) ws := by
    rw [List.forall₂_map_left_iff]
    exact List.forall₂_same.mpr hlaterRead
  have hlist := reads_items (first_ne field) hrule hread hrest
  rwa [hrun, Document.run, List.flatMap_def, List.map_map]

/-- **What a ruled node has read is laid out** as a text that it reads again. -/
theorem Ruled.back (hc : c.catalog.Built) (hset : c.catalog.TypedRules set)
    (hapart : c.catalog.EnumsApart) (hcheck : set.check = .ok ()) {d : SchemaType} {name : String}
    {n : Node} (h : Ruled c set d name n) (hd : c.catalog.types.find? d.fqn = some d) :
    Back c set ctx d name n := by
  -- one case for each kind of node, by induction over the levels below it
  induction h with
  | text hrule =>
    intro _ _ _ _ _ _ _ _ data _ _
    obtain ⟨docs, other, hdocs, hread⟩ := back_text hrule data
    exact ⟨docs, other, hdocs, hread, fun f hf => by cases hf⟩
  | expression hrule => exact back_expression hset hrule
  | binding hp htarget hrule =>
    refine back_bound hc hset hapart hcheck hd hp htarget hrule rfl (fun _ => rfl) ?_
    rintro f k rfl hk
    simp [Compiler.formatsOf, Compiler.boundFormat, hp, hk]
  | formatted hp htarget hrule =>
    refine back_bound hc hset hapart hcheck hd hp htarget hrule rfl (fun _ => rfl) ?_
    rintro f k hf hk
    cases hf
    simp [Compiler.formatsOf, Compiler.boundFormat, hp, hk]
  | shown hp hboolean _ htext hrule =>
    exact back_branch (hc.nodup_keys hd) hp hboolean htext hrule rfl fun _ => rfl
  | choice hp hboolean _ htexts hrule =>
    exact back_branch (hc.nodup_keys hd) hp hboolean htexts hrule rfl fun _ => rfl
  | @nested d e name field kind nodes place p hkind hp he hrule hlevel hnodes ih =>
    exact back_nested hc hd hkind hp he hrule hlevel hnodes
      (fun m hm => ih m hm (he.spec hc).2) place
  | @list d e name field style nodes first later place p hp harray he hrule hfirst hlater hfirstLevel
      hlaterLevel hfirsts hlaters ihFirst ihLater =>
    obtain ⟨-, hefind⟩ := he.spec hc
    exact back_list hc hd hp he hrule hfirst hlater hfirstLevel hlaterLevel hfirsts hlaters
      (fun m hm => ihFirst m hm hefind) (fun m hm => ihLater m hm hefind) place

end

/-- **What the rules of a template have read is drafted as a text that they read as the same
data.** For every template that is compiled, whatever the rules have read from a text is laid
out by the template, and the text of the document has a derivation with the same value. The
template is neat, no enumeration extends an abstract type, and the doubles, dates and amounts
of money in the first derivation are restored. -/
theorem Compiler.read_draft {c : Compiler} (hc : c.catalog.Built) (hapart : c.catalog.EnumsApart)
    {d : SchemaType} (hd : c.catalog.types.find? d.fqn = some d) {nodes : List Node} {issued : Nat}
    {set : RuleSet} (hset : (c.compile nodes d issued).1 = .ok set)
    (hneat : Neat c.catalog d nodes) {ctx : ReadingContext} {cs : List Char} {e : Derivation}
    {v : Value} (h : Derives set (.rule topStem) cs e) (hv : e.evaluate set ctx = .ok v)
    (hrestored : Restored c set ctx (c.formats nodes d) e) :
    ∃ doc, c.drafter.draft nodes v d = .ok doc ∧
      Reads set ctx (.rule topStem) doc.plainText.toList v := by
  obtain ⟨hlevel, htyped, hcheck, _⟩ := Compiler.ruled_of_compile hc hd hset
  obtain ⟨_, docs, hdocs, hread⟩ := level_back hc hd hneat (rfl : lead "" nodes = .ok nodes)
    hlevel.level hlevel.nodes (fun m hm => (hlevel.nodes m hm).back hc htyped hapart hcheck hd) h hv hrestored
  obtain ⟨hdraft, hrun⟩ := Drafter.draft_eq hdocs
  exact ⟨_, hdraft, hrun ▸ hread⟩

/-! ### An item with a part -/

namespace Shop

open Covenant.Shop

theorem neat_item : Neat catalog item itemNodes := by
  have hpart : Neat catalog part [.binding "label" none ⟨1, 36⟩] := by
    refine .level (by decide) (by decide) ?_ ?_
    · intro kind field nested place p h
      simp at h
    · intro kind field nested place p e h
      simp at h
  refine .level (by decide) (by decide) ?_ ?_
  · intro kind field nested place p h _ hp
    obtain ⟨_, rfl, _⟩ : kind = .clause ∧ field = "part" ∧
        nested = [.binding "label" none ⟨1, 36⟩] ∧ place = ⟨1, 25⟩ := by simpa [itemNodes] using h
    cases hp
    rfl
  · intro kind field nested place p e h hp he
    obtain ⟨_, rfl, rfl, _⟩ : kind = .clause ∧ field = "part" ∧
        nested = [.binding "label" none ⟨1, 36⟩] ∧ place = ⟨1, 25⟩ := by simpa [itemNodes] using h
    cases hp
    cases find_types.1.symm.trans he
    exact hpart

theorem formats_itemNodes : compiler.formats itemNodes item = [] := by
  simp only [Compiler.formats, itemNodes, Compiler.formatsOf, List.append_nil, List.nil_append]
  split <;> rfl

def quotedDerivation (text : String) : Derivation :=
  .node "String" 0 [.token text]

def itemDerivation : Derivation :=
  .node "rule" 0 [.node "rule0" 0 [quotedDerivation "\"oak\""], .node "rule1" 0 [.token " with "],
    .node "rule2" 0 [.node "part" 0 [.node "part0" 0 [quotedDerivation "\"lid\""]]]]

def oak : Value :=
  .object [(classKey, .text item.fqn), ("note", .text "oak"), ("part", lid)]

theorem derives_item {set : RuleSet} (hrules : ∀ r ∈ itemRules, set.find? r.name = some r) :
    Derives set (.rule topStem) "\"oak\" with \"lid\"".toList itemDerivation ∧
      itemDerivation.evaluate set {} = .ok oak := by
  have hfind : ∀ {i : Nat} {r : Rule}, itemRules[i]? = some r → set.find? r.name = some r :=
    fun h => hrules _ (List.mem_of_getElem? h)
  have hquoted : ∀ (t text : String), (Symbol.pattern "\"(?:[^\"\\\\]|\\\\.)*\"").Accepts text.toList →
      Action.run "string" [.text text] [] {} = .ok (.text t) →
      Derives set (.rule "String") text.toList (quotedDerivation text) ∧
        (quotedDerivation text).evaluate set {} = .ok (.text t) := fun t text haccepts hrun =>
    derives_token_node (hfind (i := 0) rfl) (q := 0) rfl (by simp [Symbol.pattern]) rfl haccepts hrun
  have hlid := hquoted "lid" "\"lid\"" (Symbol.accepts_string "lid") (by cbv)
  have hlabel := derives_reference (q := 0) (hfind (i := 1) rfl) rfl hlid rfl
  have hpart := derives_reference (q := 0) (hfind (i := 2) rfl) rfl hlabel rfl
  have hblock := derives_reference (q := 0) (hfind (i := 5) rfl) rfl hpart rfl
  have hoak := hquoted "oak" "\"oak\"" (Symbol.accepts_string "oak") (by cbv)
  have hnote := derives_reference (q := 0) (hfind (i := 3) rfl) rfl hoak rfl
  have htext : (Symbol.literal " with ").Accepts " with ".toList :=
    Symbol.accepts_literal_iff.mpr rfl
  have hwith := @derives_token_node set {} _ _ (hfind (i := 4) rfl) 0 _ rfl
    (by simp [Symbol.literal]) rfl _ htext _ rfl
  have hparts : DerivesAll set [.rule "rule0", .rule "rule1", .rule "rule2"]
      ("\"oak\"".toList ++ (" with ".toList ++ ("\"lid\"".toList ++ [])))
      [.node "rule0" 0 [quotedDerivation "\"oak\""], .node "rule1" 0 [.token " with "],
        .node "rule2" 0 [.node "part" 0 [.node "part0" 0 [quotedDerivation "\"lid\""]]]] :=
    .cons hnote.1 (.cons hwith.1 (.cons hblock.1 .nil))
  refine derives_node (hfind (i := 6) rfl) (q := 0) rfl hparts
    (Derivation.evaluateAll_cons_eq_ok.mpr ⟨_, _, hnote.2,
      Derivation.evaluateAll_cons_eq_ok.mpr ⟨_, _, hwith.2,
        Derivation.evaluateAll_singleton_eq_ok.mpr ⟨_, hblock.2, rfl⟩, rfl⟩, rfl⟩) rfl

/-- An item is drafted, and read back from its draft. -/
theorem read_draft_item : ∃ set, catalog.Built ∧ catalog.EnumsApart ∧
    catalog.types.find? item.fqn = some item ∧
    (compiler.compile itemNodes item 0).1 = .ok set ∧ Neat catalog item itemNodes ∧
    Derives set (.rule topStem) "\"oak\" with \"lid\"".toList itemDerivation ∧
    itemDerivation.evaluate set {} = .ok oak ∧
    Restored compiler set {} (compiler.formats itemNodes item) itemDerivation ∧
    ∃ doc, compiler.drafter.draft itemNodes oak item = .ok doc ∧
      Reads set {} (.rule topStem) doc.plainText.toList oak := by
  obtain ⟨set, hset, hrules⟩ := holds_itemRules
  obtain ⟨hderives, hvalue⟩ := derives_item hrules
  have hrestored : Restored compiler set {} (compiler.formats itemNodes item) itemDerivation := by
    refine ⟨?_, ?_⟩
    · intro e he T cs v hleaf h _
      obtain ⟨_, _, _, _, _, _, _, rfl⟩ := derives_rule_iff.mp h
      simp [itemDerivation, quotedDerivation, Derivation.within, Derivation.withinAll] at he
      rcases hleaf with rfl | rfl | rfl <;> simp [Monetary.typeName] at he
    · intro e _ k f hf
      rw [formats_itemNodes] at hf
      cases hf
  exact ⟨set, built, enumsApart, find_types.2.1, hset, neat_item, hderives, hvalue, hrestored,
    Compiler.read_draft built enumsApart find_types.2.1 hset neat_item hderives hvalue hrestored⟩

end Shop

end Covenant.Markup
