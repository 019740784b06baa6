import Covenant.Proofs.Markup.RoundTrip
import Covenant.Proofs.Schema.Typing
import Covenant.Template.Instance

/-!
What is read conforms to its type.

* `Everywhere`: a condition holds of a level of a template and of those of all blocks in it.
* `Bound`: a level binds all that its type requires, by nodes that read what checking accepts.
* `level_typed`: what such a level reads has the entries of its type.
* `Compiler.checkData_of_derives`: data that is read from a text is accepted by checking, and
  names its type.
-/

namespace Covenant.Markup

/-! ### Levels below a level -/

/-- **A condition on levels holds everywhere** in a template: of a level, and of those of the
blocks in it. -/
inductive Everywhere (c : Catalog) (P : SchemaType → List Node → Prop) :
    SchemaType → List Node → Prop where
  | level {d : SchemaType} {nodes : List Node} (here : P d nodes)
      (below : ∀ kind field nested place p e, Node.block kind field nested place ∈ nodes →
        d.property? field = some p → c.types.find? p.type = some e → Everywhere c P e nested) :
      Everywhere c P d nodes

/-- What a node asks of the property that it binds, for checking to accept what it reads: a
plain binding leads to no abstract type, and a choice is not about a reference. -/
def Accepted (c : Catalog) (p : Property) : Node → Prop
  | .binding _ none _ => c.Concrete p.ruleName
  | .shown .. | .choice .. => p.relationship = false
  | _ => True

/-- What identifies the values of a type is a single text. -/
def SingleIdentifier (d : SchemaType) : Prop :=
  ∀ p ∈ d.properties, d.identifier? = some p.name → p.array = false ∧ p.ruleName = "String"

instance (d : SchemaType) : Decidable (SingleIdentifier d) :=
  inferInstanceAs (Decidable (∀ p ∈ d.properties, d.identifier? = some p.name →
    p.array = false ∧ p.ruleName = "String"))

/-- **A level binds** all that its type requires, but for the identifier, by nodes that read
what checking accepts. -/
structure Bound (c : Catalog) (d : SchemaType) (nodes : List Node) : Prop where
  identifier : SingleIdentifier d
  required : ∀ p ∈ d.properties, p.optional = false → d.identifier? ≠ some p.name →
    p.name ∈ nodes.filterMap Node.field?
  accepted : ∀ n ∈ nodes, ∀ field p, n.field? = some field → d.property? field = some p →
    Accepted c p n

/-- Amounts of money that a level reads in blocks are such that `leaf` holds of them. -/
def BlocksRead (leaf : String → Value → Prop) (d : SchemaType) (nodes : List Node) : Prop :=
  ∀ kind field nested place p, Node.block kind field nested place ∈ nodes →
    d.property? field = some p → p.type = Monetary.typeName → ∀ v, leaf p.type v

namespace Everywhere

variable {c : Catalog} {P Q : SchemaType → List Node → Prop} {d : SchemaType} {nodes : List Node}

theorem here (h : Everywhere c P d nodes) : P d nodes := by
  cases h with
  | level here _ => exact here

theorem block (h : Everywhere c P d nodes) {kind : BlockKind} {field : String} {nested : List Node}
    {place : Text.Position} (hn : Node.block kind field nested place ∈ nodes) {p : Property}
    (hp : d.property? field = some p) {e : SchemaType} (he : c.types.find? p.type = some e) :
    Everywhere c P e nested := by
  cases h with
  | level _ below => exact below kind field nested place p e hn hp he

theorem mono (h : Everywhere c P d nodes) (hPQ : ∀ {d nodes}, P d nodes → Q d nodes) :
    Everywhere c Q d nodes := by
  induction h with
  | level here _ ih => exact .level (hPQ here) ih

end Everywhere

/-! ### Values of levels -/

/-- A property is found by its name. -/
theorem property_of_mem {d : SchemaType} (hnames : (d.properties.map Property.name).Nodup)
    {p : Property} (hp : p ∈ d.properties) : d.property? p.name = some p := by
  obtain ⟨q, hq⟩ : ∃ q, d.property? p.name = some q :=
    Option.isSome_iff_exists.mp (List.find?_isSome.mpr ⟨p, hp, by simp⟩)
  have hname : q.name = p.name := by simpa using List.find?_some hq
  obtain rfl : q = p := List.inj_on_of_nodup_map hnames (List.mem_of_find?_eq_some hq) hp hname
  exact hq

section

variable {c : Compiler} {s : RuleSet} {ctx : ReadingContext} {leaf : String → Value → Prop}
  {d : SchemaType}

/-- **The entries of a level** are those of its type, if it binds all that the type requires
by nodes that have read values of the properties. -/
theorem typedEntries_level (hkeys : (classKey :: d.properties.map Property.name).Nodup)
    (hidentifier : SingleIdentifier d) (id : String) {es : List (Node × Value)}
    (hrequired : ∀ p ∈ d.properties, p.optional = false → d.identifier? ≠ some p.name →
      ∃ v, boundValue? es p.name = some v ∧ v.isNull = false)
    (htyped : ∀ p ∈ d.properties, d.identifier? ≠ some p.name → ∀ v,
      boundValue? es p.name = some v → v.isNull = false → c.catalog.TypedAs leaf p v) :
    c.catalog.TypedEntries leaf d (levelFields d id es) := by
  have hfind := @find_levelFields d hkeys id es
  have hclass : ∀ {p : Property}, p ∈ d.properties → p.name ≠ classKey := fun hp heq =>
    (List.nodup_cons.mp hkeys).1 (heq ▸ List.mem_map_of_mem hp)
  refine ⟨class_levelFields hkeys id es, fun p hp v hv => ?_, fun p hp hrequired' => ?_,
    fun n hn => ?_⟩
  · obtain ⟨hnull, ⟨heq, _⟩ | ⟨hkey, rfl⟩ | ⟨_, hkey, hbound⟩⟩ := hfind.mp hv
    · exact absurd heq (hclass hp)
    · obtain ⟨harray, hname⟩ := hidentifier p hp hkey
      rw [Catalog.typedAs_single harray, hname]
      exact .primitive (t := .string) rfl ⟨id, rfl⟩ (by simp)
    · exact htyped p hp hkey v hbound hnull
  · by_cases hkey : d.identifier? = some p.name
    · exact Table.mem_names_of_find (hfind.mpr ⟨rfl, .inr (.inl ⟨hkey, rfl⟩)⟩)
    · obtain ⟨v, hv, hnull⟩ := hrequired p hp hrequired' hkey
      exact Table.mem_names_of_find (hfind.mpr ⟨hnull, .inr (.inr ⟨⟨p, hp, rfl⟩, hkey, hv⟩)⟩)
  · obtain ⟨v, hv⟩ := Table.exists_find hn
    obtain ⟨_, ⟨rfl, _⟩ | ⟨hkey, _⟩ | ⟨⟨p, hp, rfl⟩, _⟩⟩ := hfind.mp hv
    · exact .inl rfl
    · exact .inr (mem_identifier hkey)
    · exact .inr (List.mem_map_of_mem hp)

/-- A level that has the entries of its type binds what the type requires, but for the
identifier. -/
theorem exists_boundValue_of_conforms (hkeys : (classKey :: d.properties.map Property.name).Nodup)
    {id : String} {es : List (Node × Value)} (h : c.catalog.Conforms d (levelFields d id es))
    {p : Property} (hp : p ∈ d.properties) (hrequired : p.optional = false)
    (hkey : d.identifier? ≠ some p.name) :
    ∃ v, boundValue? es p.name = some v ∧ v.isNull = false := by
  obtain ⟨v, hv⟩ := Table.exists_find (h.required p hp hrequired)
  obtain ⟨hnull, ⟨hclass, _⟩ | ⟨hkey', _⟩ | ⟨_, _, hvalue⟩⟩ := (find_levelFields hkeys id es).mp hv
  · exact absurd (hclass ▸ List.mem_map_of_mem hp) (List.nodup_cons.mp hkeys).1
  · exact absurd hkey' hkey
  · exact ⟨v, hvalue, hnull⟩

/-- What such a level binds are values that its properties may have. -/
theorem fits_of_conforms (hkeys : (classKey :: d.properties.map Property.name).Nodup)
    {id : String} {es : List (Node × Value)} (h : c.catalog.Conforms d (levelFields d id es))
    {p : Property} (hp : p ∈ d.properties) (hkey : d.identifier? ≠ some p.name) {v : Value}
    (hv : boundValue? es p.name = some v) (hnull : v.isNull = false) : c.catalog.Fits p v :=
  h.property p hp v ((find_levelFields hkeys id es).mpr ⟨hnull, .inr (.inr ⟨⟨p, hp, rfl⟩, hkey, hv⟩)⟩)

/-- No rule of a template stands in the place of that of a format. -/
def FormatsKept (s : RuleSet) (formats : List (Formatted × String)) : Prop :=
  ∀ k f, (k, f) ∈ formats → ∀ r, s.find? (k.ruleName f) = some r → r.origin ≠ .template

/-- **A level that reads values of its type**, whose rules leave those of formats as they
are. -/
structure Faithful (c : Compiler) (s : RuleSet) (leaf : String → Value → Prop) (d : SchemaType)
    (nodes : List Node) : Prop where
  found : c.catalog.types.find? d.fqn = some d
  enum : d.isEnum = false
  identifier : Everywhere c.catalog (fun d _ => SingleIdentifier d) d nodes
  blocks : Everywhere c.catalog (BlocksRead leaf) d nodes
  formats : FormatsKept s (c.formats nodes d)

theorem Faithful.block (hc : c.catalog.Built) {level : List Node} (h : Faithful c s leaf d level)
    {kind : BlockKind} {field : String} {nested : List Node} {place : Text.Position}
    (hn : Node.block kind field nested place ∈ level) {p : Property}
    (hp : d.property? field = some p) {e : SchemaType} (he : LaidOut c.catalog p e) :
    Faithful c s leaf e nested := by
  refine ⟨(he.spec hc).2, he.enum, h.identifier.block hn hp he.found, h.blocks.block hn hp he.found,
    fun k f hf => h.formats k f (Compiler.formatsOf_subset hn ?_)⟩
  rwa [Compiler.formatsOf_block hp he.found]

/-- **A level whose nodes read values of their properties**: its blocks are over levels that read
values of their types. -/
structure Readable (c : Compiler) (s : RuleSet) (leaf : String → Value → Prop) (d : SchemaType)
    (nodes : List Node) : Prop where
  found : c.catalog.types.find? d.fqn = some d
  below : ∀ kind field nested place p e, Node.block kind field nested place ∈ nodes →
    d.property? field = some p → LaidOut c.catalog p e → Faithful c s leaf e nested
  blocks : BlocksRead leaf d nodes
  formats : FormatsKept s (c.formats nodes d)

theorem Faithful.readable (hc : c.catalog.Built) {level : List Node}
    (h : Faithful c s leaf d level) : Readable c s leaf d level :=
  ⟨h.found, fun _ _ _ _ _ _ hn hp he => h.block hc hn hp he, h.blocks.here, h.formats⟩

/-- **What a derivation reads by the rule of a level** has the entries of its type, if the
level binds what the type requires or checking finds nothing in it. -/
def LevelTyped (c : Compiler) (s : RuleSet) (ctx : ReadingContext)
    (leaf : String → Value → Prop) (e : Derivation) : Prop :=
  ∀ {d level nodes start stem cs v}, Faithful c s leaf d level → lead start level = .ok nodes →
    RuledLevel c s d stem nodes → Derives s (.rule stem) cs e → e.evaluate s ctx = .ok v →
    Everywhere c.catalog (Bound c.catalog) d level ∨ c.catalog.typeViolations v d.fqn = [] →
    ∃ fields, v = .object fields ∧ c.catalog.TypedEntries leaf d fields

/-- What a block has read is a value of the type of its property. -/
theorem block_typed (hc : c.catalog.Built) {level nodes led : List Node}
    (hreadable : Readable c s leaf d level) {kind : BlockKind} {field : String}
    {place : Text.Position} (hn : Node.block kind field nodes place ∈ level) {p : Property}
    (hp : d.property? field = some p) {e : SchemaType} (he : LaidOut c.catalog p e)
    {start stem : String} (hled : lead start nodes = .ok led) (hruled : RuledLevel c s e stem led)
    {x : Derivation} (hx : LevelTyped c s ctx leaf x) {cs : List Char} {v : Value}
    (h : Derives s (.rule stem) cs x) (hv : x.evaluate s ctx = .ok v)
    (hsound : Everywhere c.catalog (Bound c.catalog) d level ∨ c.catalog.Admits p.ruleName v) :
    c.catalog.Typed leaf p.ruleName v := by
  have hbelow := hreadable.below _ _ _ _ _ _ hn hp he
  obtain ⟨hname, -⟩ := he.spec hc
  have htype : p.ruleName = p.type := by simp [Property.ruleName, he.relationship]
  rw [hname] at hsound ⊢
  obtain ⟨fields, rfl, hentries⟩ := hx hbelow hled hruled h hv (hsound.imp
    (fun hbound => hbound.block hn hp he.found)
    (Catalog.admits_declared hc (Table.mem_names_of_find hbelow.found)).mp)
  refine hentries.typed hbelow.found he.enum he.abstract fun hmoney => ?_
  rw [← hname, htype] at hmoney ⊢
  exact hreadable.blocks kind field nodes place p hn hp hmoney _

/-- **What a reference has read in a format** is null, for an optional property, or a value of the
property. -/
theorem formatted_typed (hc : c.catalog.Built) (hformats : Catalog.FormatRules c.settings s)
    (hleaf : Catalog.LeavesRead ctx leaf) {level : List Node} (hreadable : Readable c s leaf d level)
    {n : Node} (hn : n ∈ level) {p : Property} (hp : p ∈ d.properties) {f target : String}
    (hasked : ∀ k, Formatted.ofType? p.type = some k → (k, f) ∈ c.formatsOf n d)
    (htarget : Target p (some f) target) {name comment : String}
    (hrule : s.Holds (referenceRule name target comment p.cardinality)) {x : Derivation}
    {cs : List Char} {v : Value} (hd : Derives s (.rule name) cs x) (hv : x.evaluate s ctx = .ok v) :
    (p.array = false ∧ p.optional = true ∧ v = .null) ∨ c.catalog.TypedAs leaf p v := by
  obtain ⟨hrelationship, k, r, hk, _, rfl⟩ := htarget
  have hname : p.ruleName = p.type := by simp [Property.ruleName, hrelationship]
  obtain ⟨x', hx', _, hw⟩ := reference_value hrule hd hv
  refine Catalog.typedAs_of_derives hx' hw fun e' _ cs w he' hw' _ => ?_
  obtain ⟨q, _, _, _, hfind, _⟩ := derives_rule_iff.mp he'
  obtain ⟨f', hq⟩ := hformats.format hfind (hreadable.formats k f
    (Compiler.formatsOf_subset hn (hasked k hk)) q hfind)
  obtain ⟨text, htext⟩ := Formatted.value_of_derives hq hfind he' hw'
  rw [← hname] at hk
  exact Catalog.typed_of_read hc (hc.isType_ruleName hreadable.found hp) hk htext
    fun hne => hleaf hk hne hq htext

/-- **What a node that depends on a truth value has read** is a value of its property, if the
property is no reference or checking finds nothing in the value. -/
theorem branch_typed {p : Property} (hboolean : p.type = "Boolean") (harray : p.array = false)
    {whenTrue whenFalse name comment : String} (htexts : whenTrue ≠ whenFalse)
    (hrule : s.Holds (branchRule comment whenTrue whenFalse name)) {x : Derivation} {cs : List Char}
    {v : Value} (hd : Derives s (.rule name) cs x) (hv : x.evaluate s ctx = .ok v)
    (hsound : p.relationship = false ∨ (c.catalog.Fits p v ∧ v.isNull = false)) :
    c.catalog.TypedAs leaf p v := by
  obtain ⟨b, rfl, _⟩ := (reads_branch_iff htexts hrule).mp ⟨x, hd, hv⟩
  have hrelationship : p.relationship = false := by
    rcases hsound with hrelationship | ⟨hfits, hnull⟩
    · exact hrelationship
    · -- a reference is read as a text, which checking asks for
      by_contra hrelationship
      have hname : p.ruleName = "String" := by simp [Property.ruleName, hrelationship]
      have hadmits := Catalog.admits_of_oneOf hfits hnull (w := .bool b)
        (by simp [Catalog.OneOf, harray])
      rw [hname] at hadmits
      cases hadmits
  refine (Catalog.typedAs_single harray).mpr ?_
  rw [Property.ruleName, hrelationship, hboolean]
  exact .primitive (t := .boolean) rfl ⟨b, rfl⟩ (by simp)

/-- **What a node has read** is null, for an optional property, or a value of the property
that it binds. -/
theorem Ruled.typedAs (hc : c.catalog.Built) (htypes : c.catalog.TypedRules s)
    (hformats : Catalog.FormatRules c.settings s) (hleaf : Catalog.LeavesRead ctx leaf)
    {level : List Node} (hreadable : Readable c s leaf d level) {name : String} {n : Node}
    (hn : n ∈ level) (h : Ruled c s d name n) {field : String} (hfield : n.field? = some field)
    {p : Property} (hp : d.property? field = some p) {x : Derivation}
    (hinside : ∀ e ∈ x.within, LevelTyped c s ctx leaf e) {cs : List Char} {v : Value}
    (hd : Derives s (.rule name) cs x) (hv : x.evaluate s ctx = .ok v)
    (hsound : Everywhere c.catalog (Bound c.catalog) d level ∨
      (c.catalog.Fits p v ∧ v.isNull = false)) :
    (p.array = false ∧ p.optional = true ∧ v = .null) ∨ c.catalog.TypedAs leaf p v := by
  have hmem := Compiler.mem_of_property hp
  have hone : ∀ {w}, Catalog.OneOf p v w →
      Everywhere c.catalog (Bound c.catalog) d level ∨ c.catalog.Admits p.ruleName w :=
    fun hw => hsound.imp_right fun h => Catalog.admits_of_oneOf h.1 h.2 hw
  have hwithin : ∀ {x' : Derivation}, x'.within ⊆ x.inside → x'.within ⊆ x.within := fun hx' =>
    List.Subset.trans hx' x.inside_subset_within
  cases h with
  | text | expression => cases hfield
  | @binding _ _ _ _ format _ p' hp' htarget hrule =>
    cases hfield
    obtain rfl : p' = p := Option.some.inj (hp'.symm.trans hp)
    cases format with
    | some f => exact formatted_typed hc hformats hleaf hreadable hn hmem (fun k hk => by
        simp [Compiler.formatsOf, Compiler.boundFormat, hp, hk]) htarget hrule hd hv
    | none =>
      obtain rfl : _ = p'.ruleName := htarget
      obtain ⟨x', hx', _, hw⟩ := reference_value hrule hd hv
      refine Catalog.typedAs_of_derives hx' hw fun e' _ cs w he' hw' hw => ?_
      exact htypes.typed hc hformats hleaf (hc.isType_ruleName hreadable.found hmem) he' hw'
        ((hone hw).imp_left fun hbound => hbound.here.accepted _ hn _ _ rfl hp)
  | @formatted _ _ _ f _ _ p' hp' htarget hrule =>
    cases hfield
    obtain rfl : p' = p := Option.some.inj (hp'.symm.trans hp)
    exact formatted_typed hc hformats hleaf hreadable hn hmem (fun k hk => by
      simp [Compiler.formatsOf, Compiler.boundFormat, hp, hk]) htarget hrule hd hv
  | @shown _ _ _ _ _ p' hp' hboolean harray htext hrule =>
    cases hfield
    obtain rfl : p' = p := Option.some.inj (hp'.symm.trans hp)
    exact .inr (branch_typed hboolean harray htext hrule hd hv
      (hsound.imp_left fun hbound => hbound.here.accepted _ hn _ _ rfl hp))
  | @choice _ _ _ _ _ _ p' hp' hboolean harray htexts hrule =>
    cases hfield
    obtain rfl : p' = p := Option.some.inj (hp'.symm.trans hp)
    exact .inr (branch_typed hboolean harray htexts hrule hd hv
      (hsound.imp_left fun hbound => hbound.here.accepted _ hn _ _ rfl hp))
  | @nested _ e _ _ kind nodes place p' hkind hp' he hrule hlevel hnodes =>
    cases hfield
    obtain rfl : p' = p := Option.some.inj (hp'.symm.trans hp)
    obtain ⟨x', hx', hin, hw⟩ := reference_value hrule hd hv
    refine Catalog.typedAs_of_derives hx' hw fun e' he' cs w hd' hw' hw => ?_
    exact block_typed hc hreadable hn hp he (rfl : lead "" nodes = .ok nodes)
      ⟨hlevel, hnodes⟩ (hinside e' (hwithin hin he')) hd' hw' (hone hw)
  | @list _ e _ _ style nodes first later place p' hp' harray he hrule hfirst hlater hfirstLevel
      hlaterLevel hfirsts hlaters =>
    cases hfield
    obtain rfl : p' = p := Option.some.inj (hp'.symm.trans hp)
    obtain ⟨w₁, ws, rfl, ⟨_, x₁, hx₁, hin₁, hw₁⟩, hrest⟩ := items_read (first_ne _) hrule hd hv
    have hone' : ∀ w ∈ w₁ :: ws, Everywhere c.catalog (Bound c.catalog) d level ∨
        c.catalog.Admits p'.ruleName w := fun w hw =>
      hone (by rw [Catalog.OneOf, if_pos harray]; exact ⟨_, rfl, hw⟩)
    refine .inr ((Catalog.typedAs_array harray).mpr ⟨_, rfl, List.forall_mem_cons.mpr ⟨?_, ?_⟩⟩)
    · exact block_typed hc hreadable hn hp he hfirst ⟨hfirstLevel, hfirsts⟩
        (hinside x₁ (hwithin hin₁ x₁.self_mem_within)) hx₁ hw₁ (hone' w₁ (by simp))
    · intro w hw
      obtain ⟨_, x', hx', hin, hvalue⟩ := hrest w hw
      exact block_typed hc hreadable hn hp he hlater ⟨hlaterLevel, hlaters⟩
        (hinside x' (hwithin hin x'.self_mem_within)) hx' hvalue
        (hone' w (List.mem_cons_of_mem _ hw))

/-- **What the rule of a level has read** has the entries of its type. -/
theorem level_typed (hc : c.catalog.Built) (htypes : c.catalog.TypedRules s)
    (hformats : Catalog.FormatRules c.settings s) (hleaf : Catalog.LeavesRead ctx leaf)
    (e : Derivation) : LevelTyped c s ctx leaf e := by
  induction e using Derivation.inside_induction with
  | h e ih =>
    intro d level nodes start stem cs v hfaithful hled hruled h hv hsound
    have hkeys := hc.nodup_keys hfaithful.found
    obtain ⟨id, hrule⟩ := hruled.level.rule
    obtain ⟨es, hes, rfl, hparts⟩ := level_value hkeys hrule h hv
    have hnode : ∀ x ∈ es, ∀ p ∈ d.properties, x.1.2.field? = some p.name →
        Everywhere c.catalog (Bound c.catalog) d level ∨
          (c.catalog.Fits p x.2 ∧ x.2.isNull = false) →
        (p.array = false ∧ p.optional = true ∧ x.2 = .null) ∨ c.catalog.TypedAs leaf p x.2 := by
      intro x hx p hp hfield hsound
      have hmem : x.1 ∈ numbered stem nodes := hes ▸ List.mem_map_of_mem hx
      obtain ⟨cs, e', hd', hinside, hw⟩ := hparts x hx
      exact (hruled.nodes x.1 hmem).typedAs hc htypes hformats hleaf (hfaithful.readable hc)
        (mem_of_lead_of_field hled (mem_of_numbered hmem).1 hfield) hfield
        (property_of_mem (List.nodup_cons.mp hkeys).2 hp) (fun e'' he'' => ih e'' (hinside he''))
        hd' hw hsound
    have hsound : Everywhere c.catalog (Bound c.catalog) d level ∨ c.catalog.Conforms d
        (levelFields d id (es.map fun x => (x.1.2, x.2))) := by
      refine hsound.imp_right fun hnone => ?_
      obtain ⟨_, heq, hconforms⟩ :=
        (Catalog.typeViolations_object_iff hfaithful.found hfaithful.enum).mp hnone
      cases heq
      exact hconforms
    refine ⟨_, rfl, typedEntries_level hkeys hfaithful.identifier.here id
      (fun p hp hrequired hkey => ?_) fun p hp hkey v hvalue hnull => ?_⟩
    · rcases hsound with hall | hconforms
      · have hmem := hall.here.required p hp hrequired hkey
        rw [← fields_lead hled, ← fields_numbered stem nodes 0, hes, List.filterMap_map] at hmem
        obtain ⟨y, hy, hyfield⟩ := List.mem_filterMap.mp hmem
        obtain ⟨v, hvalue⟩ : ∃ v, boundValue? (es.map fun x => (x.1.2, x.2)) p.name = some v := by
          rw [boundValue_map, ← Option.isSome_iff_exists, Option.isSome_map, List.find?_isSome]
          exact ⟨y, hy, by simpa using hyfield⟩
        obtain ⟨x, hx, hfield, rfl⟩ := exists_of_boundValue hvalue
        rcases hnode x hx p hp hfield (.inl hall) with ⟨_, hoptional, _⟩ | htyped
        · rw [hrequired] at hoptional
          cases hoptional
        · exact ⟨_, hvalue, htyped.not_null⟩
      · exact exists_boundValue_of_conforms hkeys hconforms hp hrequired hkey
    · obtain ⟨x, hx, hfield, rfl⟩ := exists_of_boundValue hvalue
      have hfits := hsound.imp_right fun hconforms =>
        And.intro (fits_of_conforms hkeys hconforms hp hkey hvalue hnull) hnull
      rcases hnode x hx p hp hfield hfits with ⟨_, _, hnull'⟩ | htyped
      · rw [hnull'] at hnull
        cases hnull
      · exact htyped

end

/-- **What is read from a text conforms to its type.** For every template that is compiled and
binds, at every level, what the level's type requires, whatever its rules have read from a text
names its type and is accepted by checking. No plain binding leads to an abstract type, no
choice is about a reference, what identifies values is a single text, and no rule of the
template stands in the place of that of a format. -/
theorem Compiler.checkData_of_derives {c : Compiler} (hc : c.catalog.Built) {d : SchemaType}
    (hd : c.catalog.types.find? d.fqn = some d) (henum : d.isEnum = false) {nodes : List Node}
    {issued : Nat} {set : RuleSet} (hset : (c.compile nodes d issued).1 = .ok set)
    (hbound : Everywhere c.catalog (Bound c.catalog) d nodes)
    (hformats : FormatsKept set (c.formats nodes d)) {ctx : ReadingContext} {cs : List Char}
    {e : Derivation} {v : Value} (h : Derives set (.rule topStem) cs e)
    (hv : e.evaluate set ctx = .ok v) :
    Instance.isOf d v = true ∧ c.catalog.checkData v (some d.fqn) = .ok () := by
  obtain ⟨⟨own, types, _, hjoined⟩, hruled, _⟩ := joined_of_compile hc hd hset
  have htypes := hjoined.typedRules hc
  have hfaithful : Faithful c set (fun _ _ => True) d nodes :=
    ⟨hd, henum, hbound.mono fun h => h.identifier, hbound.mono fun _ _ _ _ _ _ _ _ _ _ => trivial,
      hformats⟩
  obtain ⟨fields, rfl, hentries⟩ := level_typed hc htypes (hjoined.formatRules hc)
    (fun _ _ _ _ => trivial) e hfaithful (rfl : lead "" nodes = .ok nodes) hruled h hv (.inl hbound)
  refine ⟨?_, (Catalog.checkData_eq_ok_iff hc.sound.types hd).mpr
    ((Catalog.typeViolations_object_iff hd henum).mpr ⟨_, rfl, hentries.conforms hc⟩)⟩
  simp [Instance.isOf, Value.get?, hentries.type]

/-! ### An item that conforms -/

namespace Shop

open Covenant.Shop

theorem bound_item : Everywhere catalog (Bound catalog) item itemNodes := by
  have htext : catalog.Concrete "String" := Catalog.concrete_primitive built rfl
  have hpart : Bound catalog part [.binding "label" none ⟨1, 36⟩] := by
    refine ⟨by decide, by decide, List.forall_mem_singleton.mpr fun field p hfield hp => ?_⟩
    cases hfield
    cases hp
    exact htext
  have hitem : Bound catalog item itemNodes := by
    refine ⟨by decide, by decide, fun n hn field p hfield hp => ?_⟩
    simp only [itemNodes, List.mem_cons, List.not_mem_nil, or_false] at hn
    rcases hn with rfl | rfl | rfl
    · cases hfield
      cases hp
      exact htext
    · cases hfield
    · trivial
  refine .level hitem fun kind field nested place p e h hp he => ?_
  obtain ⟨_, rfl, rfl, _⟩ : kind = .clause ∧ field = "part" ∧
      nested = [.binding "label" none ⟨1, 36⟩] ∧ place = ⟨1, 25⟩ := by simpa [itemNodes] using h
  cases hp
  cases find_types.1.symm.trans he
  refine .level hpart fun kind field nested place p e h => ?_
  simp at h

/-- The item that is read names its type and is accepted. -/
theorem checkData_oak : ∃ set, catalog.Built ∧ catalog.types.find? item.fqn = some item ∧
    item.isEnum = false ∧ (compiler.compile itemNodes item 0).1 = .ok set ∧
    Everywhere catalog (Bound catalog) item itemNodes ∧
    FormatsKept set (compiler.formats itemNodes item) ∧
    Derives set (.rule topStem) "\"oak\" with \"lid\"".toList itemDerivation ∧
    itemDerivation.evaluate set {} = .ok oak ∧
    Instance.isOf item oak = true ∧ catalog.checkData oak (some item.fqn) = .ok () := by
  obtain ⟨set, hset, hrules⟩ := holds_itemRules
  obtain ⟨hderives, hvalue⟩ := derives_item hrules
  have hkept : FormatsKept set (compiler.formats itemNodes item) := by
    intro k f hf
    rw [formats_itemNodes] at hf
    cases hf
  exact ⟨set, built, find_types.2.1, rfl, hset, bound_item, hkept, hderives, hvalue,
    Compiler.checkData_of_derives built find_types.2.1 rfl hset bound_item hkept hderives hvalue⟩

end Shop

/-! ### Values of abstract types -/

namespace Drawing

/-- A model of figures, which have shapes: circles are the only ones. -/
def model : ModelFile where
  ns := "draw"
  declarations :=
    [{ kind := .concept, name := "Shape", abstract := true },
     { kind := .concept, name := "Circle", extends? := some "Shape" },
     { kind := .concept, name := "Figure", properties := [{ name := "shape", type := "Shape" }] }]

def compiler : Compiler where
  catalog := (Catalog.system.add model.toValue).2
  identifier := toString

def shape : SchemaType where
  fqn := "draw.Shape"
  ns := "draw"
  name := "Shape"
  kind := .concept
  abstract := true

def circle : SchemaType where
  fqn := "draw.Circle"
  ns := "draw"
  name := "Circle"
  kind := .concept
  super? := some shape.fqn

def figure : SchemaType where
  fqn := "draw.Figure"
  ns := "draw"
  name := "Figure"
  kind := .concept
  properties := [{ name := "shape", typeName := "Shape", type := shape.fqn }]

def nodes : List Node :=
  [.binding "shape" none ⟨1, 3⟩]

def rules : List Rule :=
  [circle.conceptRule, shape.ruleOf [[.rule circle.fqn]] none,
    referenceRule "rule0" shape.fqn "draw.Figure.shape" .one,
    levelRule figure "rule" "" (numbered "rule" nodes)]

theorem holds_rules : ∃ set, (compiler.compile nodes figure 0).1 = .ok set ∧
    ∀ r ∈ rules, set.find? r.name = some r := by
  have htest : ((compiler.compile nodes figure 0).1.toOption.any fun set =>
      decide (∀ r ∈ rules, set.find? r.name = some r)) = true := by
    decide +kernel
  obtain ⟨set, hset, hrules⟩ := Outcome.exists_of_any htest
  exact ⟨set, hset, of_decide_eq_true hrules⟩

def derivation : Derivation :=
  .node "rule" 0 [.node "rule0" 0 [.node shape.fqn 0 [.node circle.fqn 0 [.token "Circle"]]]]

def roundFigure : Value :=
  .object [(classKey, .text figure.fqn), ("shape", .object [(classKey, .text circle.fqn)])]

/-- **A value of an abstract type is read and then refused**: it names its own type, and
checking asks for the name of the abstract one. -/
theorem not_checkData_figure : ∃ set, (compiler.compile nodes figure 0).1 = .ok set ∧
    figure.properties.map Property.name = nodes.filterMap Node.field? ∧
    Derives set (.rule topStem) "Circle".toList derivation ∧
    derivation.evaluate set {} = .ok roundFigure ∧
    compiler.catalog.checkData roundFigure (some figure.fqn) ≠ .ok () := by
  obtain ⟨set, hset, hrules⟩ := holds_rules
  have hfind : ∀ {i : Nat} {r : Rule}, rules[i]? = some r → set.find? r.name = some r :=
    fun h => hrules _ (List.mem_of_getElem? h)
  have htext : (Symbol.literal "Circle").Accepts "Circle".toList :=
    Symbol.accepts_literal_iff.mpr rfl
  have hcircle := @derives_token_node set {} _ _ (hfind (i := 0) rfl) 0 _ rfl
    (by simp [Symbol.literal]) rfl _ htext _ rfl
  have hshape := derives_reference (q := 0) (hfind (i := 1) rfl) rfl hcircle rfl
  have hbinding := derives_reference (q := 0) (hfind (i := 2) rfl) rfl hshape rfl
  have hfigure := derives_reference (q := 0) (hfind (i := 3) rfl) rfl hbinding rfl
  have hrefused : (compiler.catalog.checkData roundFigure (some figure.fqn)).toOption = none := by
    decide +kernel
  refine ⟨set, hset, rfl, hfigure.1, hfigure.2, fun haccepted => ?_⟩
  rw [haccepted] at hrefused
  cases hrefused

end Drawing

end Covenant.Markup
