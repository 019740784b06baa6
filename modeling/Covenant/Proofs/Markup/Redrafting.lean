import Covenant.Proofs.Markup.Drafting

/-!
Drafting what was read.

* `Markup.Draftable`: a level whose nodes agree, and whose formats are read by rules of their own.
* `Markup.Ruled.drafts_own`: a node lays out what it has read itself; `Markup.Follows.drafts`: and
  so does a node that follows it.
* `Markup.level_drafted`: a level lays out what was read by its rule and is found to be without
  violations.
* `Markup.Compiler.draft_of_derives`: so does a whole template.
-/

namespace Covenant

namespace Catalog

variable {c : Catalog} {leaf : String → Value → Prop} {p : Property} {T target : String} {v : Value}
  {set : RuleSet} {ctx : ReadingContext} {cs : List Char} {e : Derivation}

/-- **The value of a property** as its rule reads it is made of values that single derivations
have. -/
theorem held_of_derives {P : Value → Prop} (h : Derives set (.rule target p.cardinality) cs e)
    (hv : e.evaluate set ctx = .ok v) (hnull : v.isNull = false)
    (hone : ∀ e' ∈ e.within, ∀ cs w, Derives set (.rule target) cs e' →
      e'.evaluate set ctx = .ok w → OneOf p v w → P w) : Held p P v := by
  rcases derives_cardinality h hv with ⟨harray, n, ds, vs, hds, rfl, hvs, rfl⟩ |
    ⟨harray, hoptional, _, rfl⟩ | ⟨harray, h⟩
  · refine .inr (.inl ⟨harray, _, rfl, fun w hw => ?_⟩)
    obtain ⟨cs, e', he', hd, hw'⟩ := exists_of_derivesAll_replicate hds hvs hw
    exact hone e' (Derivation.within_subset_many he' e'.self_mem_within) cs w hd hw'
      (by rw [OneOf, if_pos harray]; exact ⟨_, rfl, hw⟩)
  · exact .inl ⟨hoptional, rfl⟩
  · exact .inr (.inr ⟨harray, hnull, hone e e.self_mem_within cs v h hv
      (by rw [OneOf, if_neg (by simp [harray])])⟩)

/-- A text is a value of every type that admits it, but for the type of dates. -/
theorem typed_text (hc : c.Built) (hT : c.IsType T) {t : String} (h : c.Admits T (.text t))
    (hdate : T ≠ "DateTime") : c.Typed leaf T (.text t) := by
  rcases hT with hT | hT
  · obtain ⟨q, hq⟩ := Option.isSome_iff_exists.mp hT
    rw [Admits, hq] at h
    have hne : q ≠ .dateTime := by
      rintro rfl
      exact hdate (by simpa [Primitive.names] using Table.mem_of_find hq)
    cases q with
    | string => exact .primitive hq ⟨t, rfl⟩ (by simp)
    | dateTime => exact absurd rfl hne
    | _ => cases h
  · obtain ⟨d, hd⟩ := Table.exists_find hT
    obtain ⟨_, rfl⟩ := mem_of_find_fqn hc.sound.types hd
    have hnone := (admits_declared hc hT).mp h
    cases henum : d.isEnum with
    | true =>
      obtain ⟨t', ht', heq⟩ := (typeViolations_enum_iff hd henum).mp hnone
      cases heq
      exact .enum hd henum ht'
    | false =>
      obtain ⟨_, heq, _⟩ := (typeViolations_object_iff hd henum).mp hnone
      cases heq

end Catalog

namespace Markup

open Catalog (Held OneOf)

section

variable {c : Compiler} {s : RuleSet} {ctx : ReadingContext} {d : SchemaType} {level : List Node}
  {name field : String} {n n' : Node} {p : Property} {data v : Value}

/-! ### Levels that lay out what they read -/

/-- The rules of formats are those of the formats. -/
def FormatsOwn (s : RuleSet) (formats : List (Formatted × String)) : Prop :=
  ∀ k f, (k, f) ∈ formats → ∀ r, s.find? (k.ruleName f) = some r → k.rule f = .ok r

theorem FormatsOwn.kept {formats : List (Formatted × String)} (h : FormatsOwn s formats) :
    FormatsKept s formats := by
  intro k f hf r hr horigin
  rw [(Formatted.rule_spec (h k f hf r hr)).2.1] at horigin
  cases horigin

/-- **A level that lays out what it reads**: its nodes agree, and the rules of its formats are those
of the formats. -/
structure Draftable (c : Compiler) (s : RuleSet) (d : SchemaType) (nodes : List Node) : Prop where
  found : c.catalog.types.find? d.fqn = some d
  enum : d.isEnum = false
  agreeing : Everywhere c.catalog (Agreeing c) d nodes
  formats : FormatsOwn s (c.formats nodes d)

theorem Draftable.block (hc : c.catalog.Built) (h : Draftable c s d level) {kind : BlockKind}
    {nested : List Node} {place : Text.Position} (hn : Node.block kind field nested place ∈ level)
    (hp : d.property? field = some p) {e : SchemaType} (he : LaidOut c.catalog p e) :
    Draftable c s e nested := by
  refine ⟨(he.spec hc).2, he.enum, h.agreeing.block hn hp he.found,
    fun k f hf => h.formats k f (Compiler.formatsOf_subset hn ?_)⟩
  rwa [Compiler.formatsOf_block hp he.found]

/-- **What a derivation reads by the rule of a level** is laid out by the level, if checking finds
nothing in it. -/
def LevelDrafted (c : Compiler) (s : RuleSet) (ctx : ReadingContext) (e : Derivation) : Prop :=
  ∀ {d level nodes start stem cs v}, Draftable c s d level → lead start level = .ok nodes →
    RuledLevel c s d stem nodes → Derives s (.rule stem) cs e → e.evaluate s ctx = .ok v →
    c.catalog.typeViolations v d.fqn = [] →
    ∃ docs, Drafter.level (c.drafter.members nodes) v d = .ok docs

/-- A block lays out what was read by its rule. -/
theorem block_drafted (hc : c.catalog.Built) {nodes led : List Node} (hlevel : Draftable c s d level)
    {kind : BlockKind} {place : Text.Position} (hn : Node.block kind field nodes place ∈ level)
    (hp : d.property? field = some p) {e : SchemaType} (he : LaidOut c.catalog p e)
    {start stem : String} (hled : lead start nodes = .ok led) (hruled : RuledLevel c s e stem led)
    {x : Derivation} (hx : LevelDrafted c s ctx x) {cs : List Char}
    (h : Derives s (.rule stem) cs x) (hv : x.evaluate s ctx = .ok v)
    (hadmits : c.catalog.Admits p.ruleName v) : c.drafter.valueType p v = .ok e ∧
      ∃ docs, Drafter.level (c.drafter.members led) v e = .ok docs := by
  have hbelow := hlevel.block hc hn hp he
  rw [(he.spec hc).1, Catalog.admits_declared hc (Table.mem_names_of_find hbelow.found)] at hadmits
  obtain ⟨fields, rfl, hconforms⟩ :=
    (Catalog.typeViolations_object_iff hbelow.found he.enum).mp hadmits
  exact ⟨Drafter.valueType_eq hbelow.found hconforms.type, hx hbelow hled hruled h hv hadmits⟩

/-! ### Nodes without a value -/

/-- Nodes that are for no property are laid out. -/
theorem Ruled.drafts_text (h : Ruled c s d name n) (hfield : n.field? = none) :
    ∃ docs, c.drafter.node n data d = .ok docs := by
  cases h with
  | text | expression => exact ⟨_, rfl⟩
  | _ => cases hfield

/-- **A node lays out the absence** of an optional property. -/
theorem Ruled.drafts_null (h : Ruled c s d name n) (hfield : n.field? = some field)
    (hp : d.property? field = some p) (hoptional : p.optional = true)
    (hv : Drafter.entry data field = .ok .null) : ∃ docs, c.drafter.node n data d = .ok docs := by
  cases h with
  | text | expression => cases hfield
  | binding | formatted =>
    cases hfield
    exact Drafter.exists_boundValue hp hv (.inl ⟨hoptional, rfl⟩)
  | shown | choice =>
    cases hfield
    exact Drafter.exists_conditional hp hv _ _
  | nested hkind =>
    cases hfield
    obtain ⟨k, -, -, hnode⟩ := Drafter.node_nested (c := c.drafter) hkind field _ _
    rw [hnode]
    exact ⟨_, Drafter.nested_null hp hv k _⟩
  | list =>
    cases hfield
    exact Drafter.list_unset hp hv rfl _ _

/-! ### Nodes for identifiers -/

/-- A property that a text fits has a type that admits the text. -/
theorem admits_of_fits {t : String} (h : c.catalog.Fits p (.text t)) :
    p.array = false ∧ c.catalog.Admits p.ruleName (.text t) := by
  rcases h with ⟨-, hnull⟩ | h
  · cases hnull
  · split at h
    · obtain ⟨_, hlist, -⟩ := h
      cases hlist
    · rename_i harray
      exact ⟨by simpa using harray, Catalog.fitsOne_iff.mp h⟩

/-- A text is written where a property is bound whose values it is among: it is no amount of money. -/
theorem Target.write_text (hc : c.catalog.Built) {F : DateFormat}
    (hdate : DateFormat.ofString c.settings.dateFormat = .ok F) {format : Option String}
    {target : String} (h : Target p format target) {t : String}
    (htyped : c.catalog.Typed Formatted.Plain p.ruleName (.text t)) :
    ∃ text, Writable.one p format (.text t) (c.catalog.writeAs c.settings (.text t)) = .ok text := by
  refine h.write hc hdate (fun f hf hk => ?_) htyped
  subst hf
  have hmoney : p.type = Monetary.typeName := by
    simpa [Formatted.ofType_eq_some_iff] using hk
  have htype : p.ruleName = Monetary.typeName := by
    rw [Property.ruleName, h.1, hmoney]
    rfl
  obtain ⟨_, _, -, heq⟩ := (htyped.plain hc).money htype
  cases heq

/-- No text is a value of a type that blocks are over. -/
theorem LaidOut.not_text (hc : c.catalog.Built) {e : SchemaType} (he : LaidOut c.catalog p e)
    {t : String} : ¬ c.catalog.Admits p.ruleName (.text t) := by
  intro hadmits
  obtain ⟨htype, hfind⟩ := he.spec hc
  rw [htype, Catalog.admits_declared hc (Table.mem_names_of_find hfind)] at hadmits
  obtain ⟨_, heq, -⟩ := (Catalog.typeViolations_object_iff hfind he.enum).mp hadmits
  cases heq

/-- **A node lays out a text** that its property may have, unless it is a date. -/
theorem Ruled.drafts_identifier (hc : c.catalog.Built) {F : DateFormat}
    (hdate : DateFormat.ofString c.settings.dateFormat = .ok F)
    (hd : c.catalog.types.find? d.fqn = some d) (h : Ruled c s d name n)
    (hfield : n.field? = some field) (hp : d.property? field = some p)
    (hname : p.ruleName ≠ "DateTime") {t : String} (hfits : c.catalog.Fits p (.text t))
    (hv : Drafter.entry data field = .ok (.text t)) :
    ∃ docs, c.drafter.node n data d = .ok docs := by
  obtain ⟨harray, hadmits⟩ := admits_of_fits hfits
  have htyped : c.catalog.Typed Formatted.Plain p.ruleName (.text t) :=
    Catalog.typed_text hc (hc.isType_ruleName hd (Compiler.mem_of_property hp)) hadmits hname
  cases h with
  | text | expression => cases hfield
  | binding hp' htarget | formatted hp' htarget =>
    cases hfield
    cases hp'.symm.trans hp
    exact Drafter.exists_boundValue hp hv
      (.inr (.inr ⟨harray, rfl, htarget.write_text hc hdate htyped⟩))
  | shown | choice =>
    cases hfield
    exact Drafter.exists_conditional hp hv _ _
  | nested _ hp' he | list hp' _ he =>
    cases hfield
    cases hp'.symm.trans hp
    exact absurd hadmits (he.not_text hc)

/-! ### Nodes and their own values -/

/-- What was read in one format is written in another one, unless this shows currencies by symbols
and the other does not. -/
theorem Target.write_read {f f' target : String} (h : Target p (some f') target)
    (hclock : ctx.WholeMinutes) {k : Formatted} (hk : Formatted.ofType? p.type = some k) (hsymbols : k = .monetary → ∀ m m',
      MonetaryFormat.ofString f = .ok m → MonetaryFormat.ofString f' = .ok m' →
        m'.style = .symbol → m.style = .symbol) {text : String}
    (hread : k.read text f ctx = .ok v) :
    ∃ t, Writable.one p (some f') v (c.catalog.writeAs c.settings v) = .ok t := by
  obtain ⟨hrelationship, k', r, hk', hrule, -⟩ := h
  cases hk.symm.trans hk'
  obtain ⟨t, ht⟩ := Formatted.write_of_read hrule hclock hread hsymbols
  refine ⟨t, ?_⟩
  rw [Writable.one, if_neg (by simp [hrelationship])]
  simpa only [Catalog.writeFormatted, hk] using ht

/-- **What a node with a format has read** are texts in the format. -/
theorem Ruled.read_format (h : Ruled c s d name n) (hfield : n.field? = some field)
    (hp : d.property? field = some p) {f : String} (hf : n.format? = some f)
    (hown : FormatsOwn s (c.formatsOf n d)) {x : Derivation} {cs : List Char}
    (hd : Derives s (.rule name) cs x) (hv : x.evaluate s ctx = .ok v) (hnull : v.isNull = false) :
    ∃ k, Formatted.ofType? p.type = some k ∧
      Held p (fun w => ∃ text, k.read text f ctx = .ok w) v := by
  have hread : ∀ {target comment}, Target p (some f) target →
      (∀ k, Formatted.ofType? p.type = some k → (k, f) ∈ c.formatsOf n d) →
      s.Holds (referenceRule name target comment p.cardinality) →
      ∃ k, Formatted.ofType? p.type = some k ∧
        Held p (fun w => ∃ text, k.read text f ctx = .ok w) v := by
    rintro target comment ⟨_, k, r, hk, _, rfl⟩ hasked hrule
    obtain ⟨x', hx', _, hw⟩ := reference_value hrule hd hv
    refine ⟨k, hk, Catalog.held_of_derives hx' hw hnull fun e' _ cs w he' hw' _ => ?_⟩
    obtain ⟨q, _, _, _, hfind, _⟩ := derives_rule_iff.mp he'
    exact Formatted.value_of_derives (hown k f (hasked k hk) q hfind) hfind he' hw'
  cases h with
  | binding hp' htarget hrule | formatted hp' htarget hrule =>
    cases hfield
    cases hp'.symm.trans hp
    cases hf
    exact hread htarget (fun k hk => by
      simp [Compiler.formatsOf, Compiler.boundFormat, hp, hk]) hrule
  | _ => cases hf

/-- **A node with a format lays out what was read in a format**, unless it shows currencies by
symbols and the other does not. -/
theorem Ruled.drafts_read (hclock : ctx.WholeMinutes) (h : Ruled c s d name n)
    (hfield : n.field? = some field) (hp : d.property? field = some p) {f f' : String} (hf : n.format? = some f') {k : Formatted}
    (hk : Formatted.ofType? p.type = some k) (hsymbols : k = .monetary → ∀ m m',
      MonetaryFormat.ofString f = .ok m → MonetaryFormat.ofString f' = .ok m' →
        m'.style = .symbol → m.style = .symbol)
    (hv : Drafter.entry data field = .ok v)
    (hread : Held p (fun w => ∃ text, k.read text f ctx = .ok w) v) :
    ∃ docs, c.drafter.node n data d = .ok docs := by
  cases h with
  | binding hp' htarget | formatted hp' htarget =>
    cases hfield
    cases hp'.symm.trans hp
    cases hf
    exact Drafter.exists_boundValue hp hv (hread.mono fun w hw =>
      htarget.write_read hclock hk hsymbols hw.choose_spec)
  | _ => cases hf

/-- What formats read is plain, where clocks are set by whole minutes. -/
theorem leavesRead_plain (hclock : ctx.WholeMinutes) : Catalog.LeavesRead ctx Formatted.Plain :=
  fun hk _ _ hread => Formatted.plain_of_read hk hclock hread

/-- **A node lays out what it has read itself.** -/
theorem Ruled.drafts_own (hclock : ctx.WholeMinutes) (hc : c.catalog.Built) {F : DateFormat}
    (hdate : DateFormat.ofString c.settings.dateFormat = .ok F) (htypes : c.catalog.TypedRules s)
    (hformats : Catalog.FormatRules c.settings s) (hlevel : Draftable c s d level) (hn : n ∈ level)
    (h : Ruled c s d name n) (hfield : n.field? = some field) (hp : d.property? field = some p)
    {x : Derivation} (hinside : ∀ e ∈ x.within, LevelDrafted c s ctx e) {cs : List Char}
    (hd : Derives s (.rule name) cs x) (hv : x.evaluate s ctx = .ok v)
    (hfits : c.catalog.Fits p v) (hnull : v.isNull = false)
    (hentry : Drafter.entry data field = .ok v) : ∃ docs, c.drafter.node n data d = .ok docs := by
  have hwithin : ∀ {x' : Derivation}, x'.within ⊆ x.inside → x'.within ⊆ x.within := fun hx' =>
    List.Subset.trans hx' x.inside_subset_within
  have hadmits : ∀ {w}, OneOf p v w → c.catalog.Admits p.ruleName w :=
    Catalog.admits_of_oneOf hfits hnull
  have hformat : ∀ {f}, n.format? = some f → ∃ docs, c.drafter.node n data d = .ok docs := by
    intro f hf
    obtain ⟨k, hk, hread⟩ := h.read_format hfield hp hf
      (fun k f hf => hlevel.formats k f (Compiler.formatsOf_subset hn hf)) hd hv hnull
    refine h.drafts_read hclock hfield hp hf hk (fun _ m m' hm hm' hstyle => ?_) hentry hread
    cases hm.symm.trans hm'
    exact hstyle
  cases h with
  | text | expression => cases hfield
  | @binding _ _ _ _ format _ _ hp' htarget hrule =>
    cases hfield
    cases hp'.symm.trans hp
    cases format with
    | some f => exact hformat rfl
    | none =>
      obtain rfl : _ = p.ruleName := htarget
      obtain ⟨x', hx', _, hw⟩ := reference_value hrule hd hv
      refine Drafter.exists_boundValue hp hentry
        (Catalog.held_of_derives hx' hw hnull fun e' _ cs w he' hw' hone => ?_)
      have htyped : c.catalog.Typed Formatted.Plain p.ruleName w :=
        htypes.typed hc hformats (leavesRead_plain hclock)
          (hc.isType_ruleName hlevel.found (Compiler.mem_of_property hp)) he' hw' (.inr (hadmits hone))
      exact Catalog.exists_one (htyped.write hc hdate)
  | formatted => exact hformat rfl
  | shown | choice =>
    cases hfield
    exact Drafter.exists_conditional hp hentry _ _
  | @nested _ e _ _ kind nodes place _ hkind hp' he hrule hstem hnodes =>
    cases hfield
    cases hp'.symm.trans hp
    obtain ⟨x', hx', hin, hw⟩ := reference_value hrule hd hv
    have harray := hlevel.agreeing.here.single kind field nodes place p hn hkind hp
    exact Drafter.exists_nested hkind hp harray hentry
      (Catalog.held_of_derives hx' hw hnull fun e' he' cs w hd' hw' hone =>
        block_drafted hc hlevel hn hp he (rfl : lead "" nodes = .ok nodes) ⟨hstem, hnodes⟩
          (hinside e' (hwithin hin he')) hd' hw' (hadmits hone)) place
  | @list _ e _ _ style nodes first later place _ hp' harray he hrule hfirst hlater hfirstLevel
      hlaterLevel hfirsts hlaters =>
    cases hfield
    cases hp'.symm.trans hp
    obtain ⟨w₁, ws, rfl, ⟨_, x₁, hx₁, hin₁, hw₁⟩, hrest⟩ := items_read (first_ne _) hrule hd hv
    have hone : ∀ w ∈ w₁ :: ws, c.catalog.Admits p.ruleName w := fun w hw =>
      hadmits (by rw [OneOf, if_pos harray]; exact ⟨_, rfl, hw⟩)
    refine Drafter.exists_list hp hentry ?_ fun w hw => ?_
    · obtain ⟨htype, docs, hdocs⟩ := block_drafted hc hlevel hn hp he hfirst ⟨hfirstLevel, hfirsts⟩
        (hinside x₁ (hwithin hin₁ x₁.self_mem_within)) hx₁ hw₁ (hone w₁ (by simp))
      exact ⟨_, Drafter.item_eq htype hfirst hdocs⟩
    · obtain ⟨_, x', hx', hin, hvalue⟩ := hrest w hw
      obtain ⟨htype, docs, hdocs⟩ := block_drafted hc hlevel hn hp he hlater ⟨hlaterLevel, hlaters⟩
        (hinside x' (hwithin hin x'.self_mem_within)) hx' hvalue (hone w (List.mem_cons_of_mem _ hw))
      exact ⟨_, Drafter.item_eq htype hlater hdocs⟩

/-! ### Nodes and the values of others -/

/-- What identifies the values of levels below a level whose blocks are whole is a single text. -/
theorem BlocksWhole.identifiers {nodes : List Node}
    (h : Everywhere c.catalog (BlocksWhole c.catalog) d nodes) (hd : SingleIdentifier d) :
    Everywhere c.catalog (fun d _ => SingleIdentifier d) d nodes := by
  induction h with
  | level here _ ih =>
    exact .level hd fun kind field nested place p e hn hp he =>
      ih kind field nested place p e hn hp he ((here kind field nested place p hn hp).2 e he)

/-- A node whose blocks are whole reads values of its property. -/
theorem readable_of_whole (hc : c.catalog.Built) (hlevel : Draftable c s d level) (hn : n ∈ level)
    (h : Everywhere c.catalog (BlocksWhole c.catalog) d [n]) :
    Readable c s Formatted.Plain d [n] := by
  have hread : ∀ {d nodes}, BlocksWhole c.catalog d nodes → BlocksRead Formatted.Plain d nodes :=
    fun h kind field nested place p hn hp hmoney =>
      absurd hmoney (h kind field nested place p hn hp).1
  refine ⟨hlevel.found, fun kind field nested place p e hmem hp he => ?_, hread h.here, ?_⟩
  · have hbelow := h.block hmem hp he.found
    have hnested := hlevel.block hc (List.mem_singleton.mp hmem ▸ hn) hp he
    have hwhole := (h.here kind field nested place p hmem hp).2 e he.found
    exact ⟨hnested.found, hnested.enum, BlocksWhole.identifiers hbelow hwhole, hbelow.mono hread,
      hnested.formats.kept⟩
  · intro k f hf
    obtain ⟨m, hm, hf⟩ := Compiler.mem_formats.mp hf
    rw [List.mem_singleton.mp hm] at hf
    exact hlevel.formats.kept k f (Compiler.formatsOf_subset hn hf)

/-- **A node lays out what another one has read** that it follows. -/
theorem Follows.drafts (hclock : ctx.WholeMinutes) (hc : c.catalog.Built) {F : DateFormat}
    (hdate : DateFormat.ofString c.settings.dateFormat = .ok F) (htypes : c.catalog.TypedRules s)
    (hformats : Catalog.FormatRules c.settings s) (hlevel : Draftable c s d level) (hn : n ∈ level)
    (hn' : n' ∈ level) (hfollows : Follows c d n n') (h : Ruled c s d name n) {name' : String}
    (h' : Ruled c s d name' n') (hfield : n.field? = some field) (hfield' : n'.field? = some field)
    (hp : d.property? field = some p) {x : Derivation}
    (hinside : ∀ e ∈ x.within, LevelDrafted c s ctx e) {cs : List Char}
    (hd : Derives s (.rule name) cs x) (hv : x.evaluate s ctx = .ok v)
    (hfits : c.catalog.Fits p v) (hnull : v.isNull = false)
    (hentry : Drafter.entry data field = .ok v) : ∃ docs, c.drafter.node n' data d = .ok docs := by
  cases hfollows with
  | alike heq =>
    rw [heq]
    exact h.drafts_own hclock hc hdate htypes hformats hlevel hn hfield hp hinside hd hv hfits hnull hentry
  | symbols hf hf' hsymbol =>
    obtain ⟨k, hk, hread⟩ := h.read_format hfield hp hf
      (fun k f hf => hlevel.formats k f (Compiler.formatsOf_subset hn hf)) hd hv hnull
    exact h'.drafts_read hclock hfield' hp hf' hk (fun _ m _ hm _ _ => hsymbol m hm) hentry hread
  | codes hwhole hcodes =>
    have htyped := h.typedAs hc htypes hformats (leavesRead_plain hclock)
      (readable_of_whole hc hlevel hn hwhole) (List.mem_singleton_self n) hfield hp
      (fun e _ => level_typed hc htypes hformats (leavesRead_plain hclock) e) hd hv (.inr ⟨hfits, hnull⟩)
    rcases htyped with ⟨-, -, rfl⟩ | htyped
    · cases hnull
    · refine h'.drafts hc hdate hn' hlevel.agreeing hcodes fun f q hf hq => ?_
      cases hfield'.symm.trans hf
      cases hp.symm.trans hq
      exact ⟨v, hentry, htyped.held⟩

/-! ### Levels -/

/-- **A level lays out what was read by its rule**, if checking finds nothing in it. -/
theorem level_drafted (hclock : ctx.WholeMinutes) (hc : c.catalog.Built) {F : DateFormat}
    (hdate : DateFormat.ofString c.settings.dateFormat = .ok F) (htypes : c.catalog.TypedRules s)
    (hformats : Catalog.FormatRules c.settings s) (e : Derivation) : LevelDrafted c s ctx e := by
  induction e using Derivation.inside_induction with
  | h e ih =>
    intro d level nodes start stem cs v hlevel hled hruled h hv hnone
    have hkeys := hc.nodup_keys hlevel.found
    obtain ⟨id, hrule⟩ := hruled.level.rule
    obtain ⟨es, hes, rfl, hparts⟩ := level_value hkeys hrule h hv
    obtain ⟨_, heq, hconforms⟩ :=
      (Catalog.typeViolations_object_iff hlevel.found hlevel.enum).mp hnone
    cases heq
    have hfind := @find_levelFields d hkeys id (es.map fun x => (x.1.2, x.2))
    have hin : ∀ m ∈ numbered stem nodes, ∀ {field}, m.2.field? = some field → m.2 ∈ level := by
      intro m hm field hfield
      exact mem_of_lead_of_field hled (mem_of_numbered hm).1 hfield
    refine @Drafter.exists_level _ _ _ _ stem 0 fun m hm => ?_
    have hm' := hruled.nodes m hm
    cases hfield : m.2.field? with
    | none => exact hm'.drafts_text hfield
    | some field =>
      obtain ⟨p, hp⟩ := hm'.property hfield
      have hpd := Compiler.mem_of_property hp
      obtain rfl : p.name = field := by simpa using List.find?_some hp
      obtain ⟨y, hyes, hyfield, hyfirst, hbound⟩ := exists_first hled hes hm hfield
      have hentry := Drafter.entry_levelFields hkeys id hp hbound
      have hagree := hlevel.agreeing.here
      by_cases hkey : d.identifier? = some p.name
      · rw [if_pos hkey] at hentry
        have hfits := hconforms.property p hpd _ (hfind.mpr ⟨rfl, .inr (.inl ⟨hkey, rfl⟩)⟩)
        exact hm'.drafts_identifier hc hdate hlevel.found hfield hp
          (hagree.identifier m.2 (hin m hm hfield) p.name p hfield hkey hp) hfits hentry
      rw [if_neg hkey] at hentry
      cases hnull : y.2.isNull with
      | true =>
        rw [Value.isNull_iff.mp hnull] at hentry
        refine hm'.drafts_null hfield hp ?_ hentry
        by_contra hoptional
        obtain ⟨w, hw, hwnull⟩ := exists_boundValue_of_conforms hkeys hconforms hpd
          (by simpa using hoptional) hkey
        cases hbound.symm.trans hw
        rw [hnull] at hwnull
        cases hwnull
      | false =>
        have hfits := fits_of_conforms hkeys hconforms hpd hkey hbound hnull
        have hynumbered : y.1 ∈ numbered stem nodes := hes ▸ List.mem_map_of_mem hyes
        obtain ⟨cs', x, hx, hinside, hw⟩ := hparts y hyes
        have hfollows := hagree.shared m.2 (hin m hm hfield) p.name y.1.2 hfield hkey hyfirst
        exact hfollows.drafts hclock hc hdate htypes hformats hlevel (hin y.1 hynumbered hyfield)
          (hin m hm hfield) (hruled.nodes y.1 hynumbered) hm' hyfield hfield hp
          (fun e' he' => ih e' (hinside he')) hx hw hfits hnull hentry

end

/-! ### Whole templates -/

/-- The format of dates can be read where the rules of types can be made. -/
theorem exists_dateFormat {c : Catalog} {settings : Settings} {root : String} {set : RuleSet}
    (h : c.rules settings root = .ok set) : ∃ F, DateFormat.ofString settings.dateFormat = .ok F := by
  obtain ⟨_, _, _, hbase, _⟩ := Catalog.mem_rules h
  obtain ⟨_, hdates, _⟩ := Outcome.bind_eq_ok.mp hbase
  obtain ⟨_, hrule, _⟩ := Outcome.bind_eq_ok.mp hdates
  obtain ⟨F, hF, _⟩ := Outcome.bind_eq_ok.mp hrule
  exact ⟨F, hF⟩

/-- **What was read can be drafted.** For every template whose rules are made and whose nodes agree,
whatever its rules have read from a text, with clocks set by whole minutes, can be laid out again, if
it is accepted as an instance of the type. -/
theorem Compiler.draft_of_derives {c : Compiler} (hc : c.catalog.Built) {d : SchemaType}
    (hd : c.catalog.types.find? d.fqn = some d) {nodes : List Node} {issued : Nat} {set : RuleSet}
    (hset : (c.compile nodes d issued).1 = .ok set)
    (hagree : Everywhere c.catalog (Agreeing c) d nodes)
    (hformats : FormatsOwn set (c.formats nodes d)) {ctx : ReadingContext}
    (hclock : ctx.WholeMinutes) {cs : List Char} {e : Derivation} {v : Value}
    (h : Derives set (.rule topStem) cs e) (hv : e.evaluate set ctx = .ok v) (hclass : Instance.isOf d v = true)
    (hvalid : c.catalog.checkData v (some d.fqn) = .ok ()) :
    ∃ doc, c.drafter.draft nodes v d = .ok doc := by
  obtain ⟨⟨own, types, _, hjoined⟩, hruled, _⟩ := joined_of_compile hc hd hset
  obtain ⟨F, hdate⟩ := exists_dateFormat hjoined.given
  have hnone := (Catalog.checkData_eq_ok_iff hc.sound.types hd).mp hvalid
  have henum : d.isEnum = false := by
    by_contra henum
    obtain ⟨t, _, rfl⟩ := (Catalog.typeViolations_enum_iff hd (by simpa using henum)).mp hnone
    cases hclass
  obtain ⟨docs, hdocs⟩ := level_drafted hclock hc hdate (hjoined.typedRules hc)
    (hjoined.formatRules hc) e ⟨hd, henum, hagree, hformats⟩ (rfl : lead "" nodes = .ok nodes) hruled
    h hv hnone
  exact ⟨_, (Drafter.draft_eq hdocs).1⟩

end Markup

end Covenant
