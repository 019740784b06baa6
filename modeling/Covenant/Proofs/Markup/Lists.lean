import Covenant.Proofs.Markup.Layout
import Covenant.Proofs.Schema.Values

/-!
Lists that are drafted and read back.

* `Markup.NodeReads`, `Markup.LevelReads`: what the nodes of a level read, whatever the names
  of their rules are.
* `Markup.Placed`: where a node stands in a template; `RuledLevel.placed`: it has its rules
  there.
* `Markup.Compiler.reads_list_iff`: the text of a list is read as its items, in order, if and
  only if there are any.
-/

namespace Covenant.Markup

variable {c : Compiler} {set : RuleSet} {ctx : ReadingContext}

/-! ### What nodes read -/

/-- **What a node reads**, whatever the name of its rule is. -/
def NodeReads (set : RuleSet) (ctx : ReadingContext) (d : SchemaType) (n : Node) (cs : List Char)
    (w : Value) : Prop :=
  match n with
  | .text body _ _ => cs = body.toList ∧ w = .text body
  | .expression _ _ => Reads set ctx (.rule anyRule) cs w
  | .binding field format _ => ∃ p target, d.property? field = some p ∧ Target p format target ∧
      Reads set ctx (.rule target p.cardinality) cs w
  | .formatted field format _ => ∃ p target, d.property? field = some p ∧
      Target p (some format) target ∧ Reads set ctx (.rule target p.cardinality) cs w
  | .shown _ whenTrue _ => ∃ b : Bool, w = .bool b ∧ cs = (if b then whenTrue else "").toList
  | .choice _ whenTrue whenFalse _ =>
    ∃ b : Bool, w = .bool b ∧ cs = (if b then whenTrue else whenFalse).toList
  | .block (.list _) field _ _ => ∃ first css v vs, cs = first ++ css.flatten ∧ w = .list (v :: vs) ∧
      Reads set ctx (.rule (field ++ "First")) first v ∧
      List.Forall₂ (Reads set ctx (.rule field)) css vs
  | .block _ field _ _ => ∃ p, d.property? field = some p ∧
      Reads set ctx (.rule field p.cardinality) cs w
  | .foreign .. => False

theorem Target.unique {p : Property} {format : Option String} {target target' : String}
    (h : Target p format target) (h' : Target p format target') : target = target' := by
  cases format with
  | none => exact Eq.trans h (Eq.symm h')
  | some f =>
    obtain ⟨_, k, _, hk, _, rfl⟩ := h
    obtain ⟨_, k', _, hk', _, rfl⟩ := h'
    rw [Option.some.inj (hk.symm.trans hk')]

/-- **The rule of a node reads what the node reads.** -/
theorem Ruled.reads {d : SchemaType} {name : String} {n : Node} (h : Ruled c set d name n)
    {cs : List Char} {w : Value} (hreads : NodeReads set ctx d n cs w) :
    Reads set ctx (.rule name) cs w := by
  cases h with
  | text hrule =>
    obtain ⟨rfl, rfl⟩ := hreads
    exact reads_textRule hrule
  | expression hrule => exact reads_reference hrule hreads
  | binding hp htarget hrule =>
    obtain ⟨p, target, hp', htarget', hread⟩ := hreads
    cases hp.symm.trans hp'
    obtain rfl := htarget.unique htarget'
    exact reads_reference hrule hread
  | formatted hp htarget hrule =>
    obtain ⟨p, target, hp', htarget', hread⟩ := hreads
    cases hp.symm.trans hp'
    obtain rfl := htarget.unique htarget'
    exact reads_reference hrule hread
  | shown hp hboolean harray htext hrule => exact (reads_branch_iff htext hrule).mpr hreads
  | choice hp hboolean harray htexts hrule => exact (reads_branch_iff htexts hrule).mpr hreads
  | @nested _ e _ field kind nodes place p hkind hp he hrule hlevel hnodes =>
    have hreads : ∃ p, d.property? field = some p ∧
        Reads set ctx (.rule field p.cardinality) cs w := by
      cases kind with
      | clause => exact hreads
      | within => exact hreads
      | list style => exact absurd rfl (hkind style)
    obtain ⟨p', hp', hread⟩ := hreads
    cases hp.symm.trans hp'
    exact reads_reference hrule hread
  | list hp harray he hrule hfirst hlater hfirstLevel hlaterLevel hfirsts hlaters =>
    obtain ⟨first, css, v, vs, rfl, rfl, hfirst, hlater⟩ := hreads
    exact reads_items (first_ne _) hrule hfirst hlater

/-- **What the nodes of a level read** one after the other, where the rule of the level gives
the identifier. -/
def LevelReads (set : RuleSet) (ctx : ReadingContext) (d : SchemaType) (id : String)
    (nodes : List Node) (cs : List Char) (v : Value) : Prop :=
  ∃ es : List (Node × List Char × Value), nodes = es.map Prod.fst ∧
    (∀ x ∈ es, NodeReads set ctx d x.1 x.2.1 x.2.2) ∧ cs = es.flatMap (fun x => x.2.1) ∧
    v = .object (levelFields d id (es.map fun x => (x.1, x.2.2)))

/-! ### Levels -/

/-- The value of a level depends on what is bound. -/
theorem levelFields_of_bound {d : SchemaType} (id : String) {es es' : List (Node × Value)}
    (h : ∀ f, boundValue? es f = boundValue? es' f) : levelFields d id es = levelFields d id es' := by
  have hentries : boundEntries d es = boundEntries d es' := by
    unfold boundEntries
    simp only [h]
  rw [levelFields, hentries, levelFields]

/-- Nodes that bind nothing do not matter. -/
theorem boundValue_cons {n : Node} (hn : n.field? = none) (w : Value) (es : List (Node × Value))
    (field : String) : boundValue? ((n, w) :: es) field = boundValue? es field := by
  rw [boundValue?, List.find?_cons_of_neg (by simp [hn]), boundValue?]

/-- The nodes of a level that have rules read and bind the same as all of its nodes. -/
theorem exists_numbered (stem : String) {es : List (Node × List Char × Value)}
    (hsilent : ∀ x ∈ es, x.1.silent = true → x.2.1 = []) (start : Nat) :
    ∃ es' : List ((String × Node) × List Char × Value),
      numbered stem (es.map Prod.fst) start = es'.map Prod.fst ∧
      (∀ x ∈ es', (x.1.2, x.2) ∈ es) ∧
      es'.flatMap (fun x => x.2.1) = es.flatMap (fun x => x.2.1) ∧
      ∀ f, boundValue? (es'.map fun x => (x.1.2, x.2.2)) f =
        boundValue? (es.map fun x => (x.1, x.2.2)) f := by
  induction es generalizing start with
  | nil => exact ⟨[], rfl, by simp, rfl, fun _ => rfl⟩
  | cons x es ih =>
    obtain ⟨es', hes, hmem, htext, hbound⟩ :=
      ih (fun y hy => hsilent y (List.mem_cons_of_mem _ hy)) (start + 1)
    have hmem' : ∀ y ∈ es', (y.1.2, y.2) ∈ x :: es := fun y hy => List.mem_cons_of_mem _ (hmem y hy)
    rw [List.map_cons, numbered_cons]
    by_cases hx : x.1.silent = true
    · have hfield : x.1.field? = none := by
        obtain ⟨last, place, htext⟩ := Compiler.silent_iff.mp hx
        rw [htext, Node.field?]
      refine ⟨es', by rw [if_pos hx, hes], hmem', ?_, fun f => ?_⟩
      · rw [htext, List.flatMap_cons, hsilent x (by simp) hx, List.nil_append]
      · rw [hbound, List.map_cons, boundValue_cons hfield]
    · refine ⟨((stem ++ toString start, x.1), x.2) :: es', by rw [if_neg hx, hes]; rfl,
        List.forall_mem_cons.mpr ⟨by simp, hmem'⟩, ?_, fun f => ?_⟩
      · rw [List.flatMap_cons, htext, List.flatMap_cons]
      · have hrest := hbound f
        rw [boundValue?, boundValue?] at hrest ⊢
        by_cases hfield : x.1.field? = some f
        · rw [List.map_cons, List.find?_cons_of_pos (by simp [hfield]), List.map_cons,
            List.find?_cons_of_pos (by simp [hfield])]
        · rw [List.map_cons, List.find?_cons_of_neg (by simp [hfield]), hrest, List.map_cons,
            List.find?_cons_of_neg (by simp [hfield])]

/-- **The rule of a level reads what its nodes read.** -/
theorem levelRule_reads {d : SchemaType} {stem id : String} {nodes : List Node}
    (hkeys : (classKey :: d.properties.map Property.name).Nodup)
    (hrule : set.Holds (levelRule d stem id (numbered stem nodes)))
    (hruled : ∀ m ∈ numbered stem nodes, Ruled c set d m.1 m.2) {cs : List Char} {v : Value}
    (h : LevelReads set ctx d id nodes cs v) : Reads set ctx (.rule stem) cs v := by
  obtain ⟨es, rfl, hes, rfl, rfl⟩ := h
  have hsilent : ∀ x ∈ es, x.1.silent = true → x.2.1 = [] := by
    intro x hx hsilent
    have hread := hes x hx
    obtain ⟨last, place, htext⟩ := Compiler.silent_iff.mp hsilent
    rw [htext] at hread
    exact hread.1
  obtain ⟨es', hnumbered, hmem, htext, hbound⟩ := exists_numbered stem hsilent 0
  have hparts : ∀ x ∈ es', Reads set ctx (.rule x.1.1) x.2.1 x.2.2 := fun x hx =>
    (hruled x.1 (hnumbered ▸ List.mem_map_of_mem hx)).reads (hes _ (hmem x hx))
  have hread := reads_level hkeys hrule hnumbered hparts
  rwa [htext, levelFields_of_bound id hbound] at hread

/-- A text in front of a level is read in front of what the level reads. -/
theorem LevelReads.lead {d : SchemaType} {id start : String} {nodes led : List Node}
    (hled : lead start nodes = .ok led) {cs : List Char} {v : Value}
    (h : LevelReads set ctx d id nodes cs v) :
    LevelReads set ctx d id led (start.toList ++ cs) v := by
  obtain ⟨es, rfl, hes, rfl, rfl⟩ := h
  -- a text of its own in front
  have hown : ∀ place, LevelReads set ctx d id (.text start false place :: es.map Prod.fst)
      (start.toList ++ es.flatMap fun x => x.2.1)
      (.object (levelFields d id (es.map fun x => (x.1, x.2.2)))) := by
    intro place
    refine ⟨(.text start false place, start.toList, .text start) :: es, rfl,
      List.forall_mem_cons.mpr ⟨⟨rfl, rfl⟩, hes⟩, rfl, ?_⟩
    exact congrArg Value.object
      (levelFields_of_bound id fun f => (boundValue_cons rfl _ _ f).symm)
  rcases lead_cases hled with ⟨rfl, rfl⟩ | ⟨body, last, place, rest, hnodes, rfl⟩ | ⟨place, rfl⟩
  · exact ⟨es, rfl, hes, rfl, rfl⟩
  · obtain ⟨⟨n, cs, w⟩, es, rfl, hn, rfl⟩ := List.map_eq_cons_iff.mp hnodes
    obtain rfl : n = .text body last place := hn
    obtain ⟨⟨htext, hvalue⟩, hrest⟩ := List.forall_mem_cons.mp hes
    obtain rfl : cs = body.toList := htext
    refine ⟨(.text (start ++ body) last place, (start ++ body).toList, .text (start ++ body)) :: es,
      rfl, List.forall_mem_cons.mpr ⟨⟨rfl, rfl⟩, hrest⟩, by simp, ?_⟩
    refine congrArg Value.object (levelFields_of_bound id fun f => ?_)
    rw [List.map_cons, boundValue_cons rfl, List.map_cons, boundValue_cons rfl]
  · exact hown place

/-! ### Places -/

/-- **Where a node stands in a template**: in a level of a type, with the name of its rule. -/
inductive Placed (c : Compiler) : SchemaType → String → List Node → SchemaType → String → Node → Prop
    where
  | here {d : SchemaType} {stem : String} {nodes : List Node} {m : String × Node}
      (hm : m ∈ numbered stem nodes) : Placed c d stem nodes d m.1 m.2
  | nested {d e d' : SchemaType} {stem name name' field : String} {nodes inner : List Node}
      {kind : BlockKind} {place : Text.Position} {p : Property} {n : Node}
      (hm : (name, .block kind field inner place) ∈ numbered stem nodes)
      (hkind : ∀ style, kind ≠ .list style) (hp : d.property? field = some p)
      (he : c.catalog.types.find? p.type = some e) (h : Placed c e field inner d' name' n) :
      Placed c d stem nodes d' name' n
  | first {d e d' : SchemaType} {stem name name' field : String} {nodes inner led : List Node}
      {style : ListStyle} {place : Text.Position} {p : Property} {n : Node}
      (hm : (name, .block (.list style) field inner place) ∈ numbered stem nodes)
      (hp : d.property? field = some p) (he : c.catalog.types.find? p.type = some e)
      (hled : lead (style.leads c.settings).1 inner = .ok led)
      (h : Placed c e (field ++ "First") led d' name' n) : Placed c d stem nodes d' name' n
  | later {d e d' : SchemaType} {stem name name' field : String} {nodes inner led : List Node}
      {style : ListStyle} {place : Text.Position} {p : Property} {n : Node}
      (hm : (name, .block (.list style) field inner place) ∈ numbered stem nodes)
      (hp : d.property? field = some p) (he : c.catalog.types.find? p.type = some e)
      (hled : lead (style.leads c.settings).2 inner = .ok led)
      (h : Placed c e field led d' name' n) : Placed c d stem nodes d' name' n

/-- **A node has its rules** wherever it stands in a level that is ruled. -/
theorem RuledLevel.placed {d d' : SchemaType} {stem name : String} {nodes : List Node} {n : Node}
    (hlevel : RuledLevel c set d stem nodes) (h : Placed c d stem nodes d' name n) :
    Ruled c set d' name n := by
  induction h with
  | here hm => exact hlevel.nodes _ hm
  | nested hm hkind hp he _ ih =>
    cases hlevel.nodes _ hm with
    | nested _ hp' he' _ hlevel hnodes =>
      cases hp.symm.trans hp'
      cases he.symm.trans he'.found
      exact ih ⟨hlevel, hnodes⟩
    | list => exact absurd rfl (hkind _)
  | first hm hp he hled _ ih =>
    cases hlevel.nodes _ hm with
    | nested hkind => exact absurd rfl (hkind _)
    | list hp' _ he' _ hfirst _ hfirstLevel _ hfirsts _ =>
      cases hp.symm.trans hp'
      cases he.symm.trans he'.found
      cases hled.symm.trans hfirst
      exact ih ⟨hfirstLevel, hfirsts⟩
  | later hm hp he hled _ ih =>
    cases hlevel.nodes _ hm with
    | nested hkind => exact absurd rfl (hkind _)
    | list hp' _ he' _ _ hlater _ hlaterLevel _ hlaters =>
      cases hp.symm.trans hp'
      cases he.symm.trans he'.found
      cases hled.symm.trans hlater
      exact ih ⟨hlaterLevel, hlaters⟩

/-! ### Items -/

/-- A level is drafted behind a text in front of it. -/
theorem level_lead {dr : Drafter} {start : String} {nodes led : List Node}
    (hled : lead start nodes = .ok led) {v : Value} {d : SchemaType} {docs : List Document}
    (h : Drafter.level (dr.members nodes) v d = .ok docs) :
    ∃ docs', Drafter.level (dr.members led) v d = .ok docs' ∧
      Document.run docs' = start.toList ++ Document.run docs := by
  rcases lead_cases hled with ⟨rfl, rfl⟩ | ⟨body, last, place, rest, rfl, rfl⟩ | ⟨place, rfl⟩
  · exact ⟨docs, h, rfl⟩
  · obtain ⟨_, docs, htext, hrest, rfl⟩ := Drafter.level_cons_eq_ok.mp h
    cases htext
    refine ⟨(if (start ++ body).isEmpty then [] else [Document.ofText (start ++ body)]) ++ docs,
      Drafter.level_cons rfl hrest, ?_⟩
    rw [Document.run_append, Document.run_append, Document.run_text, Document.run_text,
      String.toList_append, List.append_assoc]
  · refine ⟨(if start.isEmpty then [] else [Document.ofText start]) ++ docs,
      Drafter.level_cons rfl h, ?_⟩
    rw [Document.run_append, Document.run_text]

/-- The stem of the rules for an item of a list, by its position. -/
def itemStem (field : String) (i : Nat) : String :=
  if i = 0 then field ++ "First" else field

/-- **An item is read by the nested template** of a list: its draft is what the nested template
reads from it, with the identifier that the rule for its position gives. -/
def ItemReads (c : Compiler) (set : RuleSet) (ctx : ReadingContext) (e : SchemaType)
    (stem : String) (nested : List Node) (v : Value) : Prop :=
  ∃ docs, Drafter.level (c.drafter.members nested) v e = .ok docs ∧
    ∀ id parts, set.Holds (levelRule e stem id parts) →
      LevelReads set ctx e id nested (Document.run docs) v

/-- An item that the nested template reads is drafted with the text in front of it, and the
rule for its position reads it. -/
theorem ItemReads.item (hc : c.catalog.Built) {e : SchemaType}
    (he : c.catalog.types.find? e.fqn = some e) {stem start : String} {nested led : List Node}
    (hled : lead start nested = .ok led) (hlevel : HasLevel set e stem led)
    (hruled : ∀ m ∈ numbered stem led, Ruled c set e m.1 m.2) {v : Value}
    (h : ItemReads c set ctx e stem nested v) (p : Property) :
    ∃ doc, c.drafter.item p start (c.drafter.members nested) v = .ok doc ∧
      Reads set ctx (.rule stem) doc.plainText.toList v := by
  obtain ⟨docs, hdocs, hreads⟩ := h
  obtain ⟨id, hrule⟩ := hlevel.rule
  have hkeys := hc.nodup_keys he
  have hread := levelRule_reads hkeys hrule hruled ((hreads id _ hrule).lead hled)
  obtain ⟨es, _, _, _, rfl⟩ := hreads id _ hrule
  obtain ⟨docs', hdocs', hrun⟩ := level_lead hled hdocs
  refine ⟨_, Drafter.item_eq (Drafter.valueType_eq (c := c.drafter) he
    (class_levelFields hkeys id _)) hled hdocs', ?_⟩
  rwa [@Document.plainText_inner .listItem rfl (by decide), hrun]

/-- **The text of a list is read as its items, in order, if and only if there are any.** For
every list in a template that is compiled, wherever it stands, items that the nested template
reads are drafted; the rule of the list reads the draft of at least one item as exactly these
items, whereas it reads nothing at all as a list without items. -/
theorem Compiler.reads_list_iff (hc : c.catalog.Built) {d : SchemaType}
    (hd : c.catalog.types.find? d.fqn = some d) {nodes : List Node} {issued : Nat}
    (hset : (c.compile nodes d issued).1 = .ok set) {type : SchemaType} {name field : String}
    {style : ListStyle} {nested : List Node} {place : Text.Position}
    (hplaced : Placed c d topStem nodes type name (.block (.list style) field nested place))
    {p : Property} (hp : type.property? field = some p) {e : SchemaType}
    (he : c.catalog.types.find? p.type = some e) {items : List Value}
    (hitems : ∀ i v, items[i]? = some v → ItemReads c set ctx e (itemStem field i) nested v)
    {data : Value} (hdata : Drafter.entry data field = .ok (.list items)) :
    ∃ docs, c.drafter.node (.block (.list style) field nested place) data type = .ok docs ∧
      (Reads set ctx (.rule name) (Document.run docs) (.list items) ↔ items ≠ []) := by
  obtain ⟨hlevel, _⟩ := Compiler.ruled_of_compile hc hd hset
  have hruled := hlevel.placed hplaced
  cases hruled with
  | nested hkind => exact absurd rfl (hkind style)
  | list hp' _ he' hrule hfirst hlater hfirstLevel hlaterLevel hfirsts hlaters =>
    cases hp.symm.trans hp'
    cases he.symm.trans he'.found
    obtain ⟨_, hfqn⟩ := Catalog.mem_of_find_fqn hc.sound.types he
    have hefind : c.catalog.types.find? e.fqn = some e := hfqn ▸ he
    cases items with
    | nil =>
      refine ⟨_, Outcome.bind_eq_ok.mpr ⟨p, Drafter.property_eq hp,
        Outcome.bind_eq_ok.mpr ⟨_, hdata, rfl⟩⟩, ?_⟩
      -- whatever the rule reads has a first item
      refine iff_of_false ?_ (by simp)
      rintro ⟨x, hx, hv⟩
      obtain ⟨_, _, _, _, _, _, _, _, _, _, _, _, _, _, hlist⟩ :=
        items_value (first_ne field) hrule hx hv
      cases hlist
    | cons v vs =>
      obtain ⟨doc, hdoc, hread⟩ := (hitems 0 v rfl).item hc hefind hfirst hfirstLevel hfirsts p
      have hothers : ∀ w ∈ vs, ∃ doc, c.drafter.item p (style.leads c.settings).2
          (c.drafter.members nested) w = .ok doc ∧
          Reads set ctx (.rule field) doc.plainText.toList w := by
        intro w hw
        obtain ⟨i, hi⟩ := List.mem_iff_getElem?.mp hw
        exact (hitems (i + 1) w (by simpa using hi)).item hc hefind hlater hlaterLevel hlaters p
      choose! later hlaterDoc hlaterRead using hothers
      obtain ⟨doc', hdoc', hrun⟩ := Drafter.list_eq (c := c.drafter) hp hdata hdoc hlaterDoc
      refine ⟨[doc'], hdoc', iff_of_true ?_ (by simp)⟩
      have hrest : List.Forall₂ (Reads set ctx (.rule field))
          (vs.map fun w => (later w).plainText.toList) vs := by
        rw [List.forall₂_map_left_iff]
        exact List.forall₂_same.mpr hlaterRead
      have hlist := reads_items (first_ne field) hrule hread hrest
      rwa [hrun, Document.run, List.flatMap_def, List.map_map]

/-! ### Orders without items -/

namespace Shop

open Covenant.Shop

def noteNodes : List Node :=
  [.binding "note" none ⟨1, 20⟩]

def noteList : Node :=
  .block (.list .bullets) "items" noteNodes ⟨1, 10⟩

/-- The rule of texts, and the rule of the list. -/
theorem holds_noteRules : ∃ set, (compiler.compile [noteList] order 0).1 = .ok set ∧
    set.find? "String" = some (patternRule "String" "\"(?:[^\"\\\\]|\\\\.)*\"" "string") ∧
    set.find? "rule0" = some (itemsRule "rule0" "itemsFirst" "items" "shop.Order.items") := by
  have htest : ((compiler.compile [noteList] order 0).1.toOption.any fun set =>
      decide (set.find? "String" =
          some (patternRule "String" "\"(?:[^\"\\\\]|\\\\.)*\"" "string") ∧
        set.find? "rule0" = some (itemsRule "rule0" "itemsFirst" "items" "shop.Order.items"))) =
      true := by
    decide +kernel
  obtain ⟨set, hset, hrules⟩ := Outcome.exists_of_any htest
  exact ⟨set, hset, of_decide_eq_true hrules⟩

theorem placed_noteList : Placed compiler order topStem [noteList] order "rule0" noteList :=
  .here (m := ("rule0", noteList)) (by simp [numbered, noteList, Node.silent]; decide)

/-- **A list without items is not read back**: its draft is empty, and the rule of the list
does not read it as a list without items. -/
theorem not_reads_empty : ∃ set, (compiler.compile [noteList] order 0).1 = .ok set ∧
    Placed compiler order topStem [noteList] order "rule0" noteList ∧
    ∃ docs, compiler.drafter.node noteList
        (.object [(classKey, .text order.fqn), ("items", .list [])]) order = .ok docs ∧
      Document.run docs = [] ∧ ¬ Reads set {} (.rule "rule0") (Document.run docs) (.list []) := by
  obtain ⟨set, hset, _, hrule⟩ := holds_noteRules
  refine ⟨set, hset, placed_noteList, _, rfl, rfl, ?_⟩
  rintro ⟨x, hx, hv⟩
  obtain ⟨_, _, _, _, _, _, _, _, _, _, _, _, _, _, hlist⟩ :=
    items_value (by decide) hrule hx hv
  cases hlist

def noted (note : String) : Value :=
  .object [(classKey, .text item.fqn), ("note", .text note)]

theorem itemReads_noted {set : RuleSet} (hfind : set.find? "String" =
    some (patternRule "String" "\"(?:[^\"\\\\]|\\\\.)*\"" "string")) (stem note : String) :
    ItemReads compiler set {} item stem noteNodes (noted note) := by
  have hwritten : compiler.catalog.writeProperty compiler.settings
      { name := "note", typeName := "String", type := "String" } (.text note) none =
        .ok (JsonText.literal false note) := by
    rw [Catalog.writeProperty_one rfl rfl]
    exact Catalog.writeAs_primitive (t := .string) rfl _
  have hentry : Drafter.entry (noted note) "note" = .ok (.text note) := rfl
  obtain ⟨doc, hdoc, hrun⟩ := Drafter.boundValue_eq (c := compiler.drafter) (d := item)
    rfl hentry hwritten
  have hdocs : Drafter.level (compiler.drafter.members noteNodes) (noted note) item = .ok [doc] :=
    Drafter.level_cons_eq_ok.mpr ⟨[doc], [], hdoc, rfl, rfl⟩
  refine ⟨[doc], hdocs, fun id parts _ => ?_⟩
  refine ⟨[(.binding "note" none ⟨1, 20⟩, Document.run [doc], .text note)], rfl, ?_, by simp, rfl⟩
  refine List.forall_mem_singleton.mpr ⟨_, "String", rfl, rfl, ?_⟩
  rw [hrun]
  exact Catalog.reads_patternRule hfind (Symbol.accepts_string note) (by
    rw [String.ofList_toList]
    simp [Action.run, Action.first, Action.readJson, Json.read_literal])

def twoNotes : Value :=
  .object [(classKey, .text order.fqn), ("items", .list [noted "oak", noted "elm"])]

/-- Two items are read back. -/
theorem reads_list_notes : ∃ set, Catalog.Built compiler.catalog ∧
    compiler.catalog.types.find? order.fqn = some order ∧
    compiler.catalog.types.find? item.fqn = some item ∧
    (compiler.compile [noteList] order 0).1 = .ok set ∧
    Placed compiler order topStem [noteList] order "rule0" noteList ∧
    (∀ i v, [noted "oak", noted "elm"][i]? = some v →
      ItemReads compiler set {} item (itemStem "items" i) noteNodes v) ∧
    ∃ docs, compiler.drafter.node noteList twoNotes order = .ok docs ∧
      (Reads set {} (.rule "rule0") (Document.run docs) (.list [noted "oak", noted "elm"]) ↔
        [noted "oak", noted "elm"] ≠ []) := by
  obtain ⟨set, hset, hstring, _⟩ := holds_noteRules
  have hitems : ∀ i v, [noted "oak", noted "elm"][i]? = some v →
      ItemReads compiler set {} item (itemStem "items" i) noteNodes v := by
    intro i v hv
    rcases List.mem_pair.mp (List.mem_of_getElem? hv) with rfl | rfl
    · exact itemReads_noted hstring _ _
    · exact itemReads_noted hstring _ _
  exact ⟨set, built, find_types.2.2, find_types.2.1, hset, placed_noteList, hitems,
    Compiler.reads_list_iff built find_types.2.2 hset placed_noteList (p :=
      { name := "items", typeName := "Item", type := "shop.Item", array := true }) rfl
      find_types.2.1 hitems rfl⟩

end Shop

end Covenant.Markup
