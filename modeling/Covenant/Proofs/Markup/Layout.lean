import Covenant.Document.Draft
import Covenant.Proofs.Markup.Evaluation

/-!
What the nodes of a template are laid out as.

* `Document.run`: the text of documents one after the other.
* `Drafter.level_eq`: a level is laid out as its nodes that are not empty texts are.
* `Drafter.lead_members`: a text in front of what is laid out.
* `Drafter.draft_eq`: the text of a whole document.
-/

namespace Covenant

namespace Document

/-! ### Texts -/

def run (ds : List Document) : List Char :=
  ds.flatMap fun d => d.plainText.toList

theorem plainTexts_eq_map (ds : List Document) : plainTexts ds = ds.map plainText := by
  induction ds with
  | nil => rfl
  | cons d ds ih => rw [plainTexts, ih, List.map_cons]

theorem intercalate_nil {α : Type} (css : List (List α)) : [].intercalate css = css.flatten := by
  induction css with
  | nil => rfl
  | cons cs css ih =>
    cases css with
    | nil => simp [List.intercalate]
    | cons cs' css => simp [List.intercalate_cons_cons, ih]

theorem join_plainTexts (ds : List Document) : ("".intercalate (plainTexts ds)).toList = run ds := by
  rw [plainTexts_eq_map, String.toList_intercalate, List.map_map, String.toList_empty,
    intercalate_nil, run, List.flatMap_def]
  rfl

/-- The text of a leaf. -/
theorem plainText_leaf {kind : DocumentKind} (hkind : kind.isLeaf = true) (text : String)
    (name : Option String) (value : Value) (attributes : Table Value) (children : List Document) :
    (node kind (some text) name value attributes children).plainText = text := by
  rw [plainText, if_pos hkind]
  rfl

/-- The text of a node with children. -/
theorem plainText_inner {kind : DocumentKind} (hkind : kind.isLeaf = false)
    (hdocument : kind ≠ .document) (text name : Option String) (value : Value)
    (attributes : Table Value) (children : List Document) :
    (node kind text name value attributes children).plainText.toList = run children := by
  rw [plainText, if_neg (by simp [hkind]), if_neg (fun h => hdocument h.1), join_plainTexts]

/-- The text of a text. -/
theorem run_text (body : String) :
    run (if body.isEmpty then [] else [ofText body]) = body.toList := by
  split
  · rename_i hempty
    rw [String.isEmpty_iff.mp hempty]
    rfl
  · simp [run, ofText, @plainText_leaf .text rfl]

theorem run_append (ds ds' : List Document) : run (ds ++ ds') = run ds ++ run ds' :=
  List.flatMap_append

end Document

/-- The drafter of the same types and settings as a compiler. -/
def Markup.Compiler.drafter (c : Compiler) : Drafter :=
  ⟨c.catalog, c.settings⟩

namespace Drafter

open Markup Document

variable {c : Drafter} {d : SchemaType} {data : Value} {nodes : List Node}

/-! ### Nodes and members -/

theorem members_eq_map (c : Drafter) (nodes : List Node) :
    c.members nodes = nodes.map fun n => ⟨n, c.node n⟩ := by
  induction nodes with
  | nil => rfl
  | cons n ns ih => rw [members, ih, List.map_cons]

/-- The members of a level with a text in front of it. -/
theorem lead_members (c : Drafter) (start : String) (nodes : List Node) :
    leadMembers Member.node textMember start (c.members nodes) =
      (lead start nodes).map c.members := by
  have hmembers : c.members = List.map fun n => ⟨n, c.node n⟩ := funext fun ns => members_eq_map c ns
  rw [hmembers]
  exact leadMembers_map (fun _ => rfl) (fun _ _ _ => rfl) start nodes

/-- Empty texts are laid out as nothing. -/
theorem node_of_silent {n : Node} (h : n.silent = true) : c.node n data d = .ok [] := by
  obtain ⟨last, place, rfl⟩ := Compiler.silent_iff.mp h
  rfl

theorem level_cons_eq_ok {m : Member} {ms : List Member} {docs : List Document} :
    level (m :: ms) data d = .ok docs ↔ ∃ first rest, m.layout data d = .ok first ∧
      level ms data d = .ok rest ∧ docs = first ++ rest := by
  constructor
  · intro h
    obtain ⟨parts, hparts, h⟩ := Outcome.bind_eq_ok.mp h
    cases h
    obtain ⟨first, hfirst, parts, hrest, rfl⟩ := Outcome.mapM_cons_ok.mp hparts
    exact ⟨first, _, hfirst, Outcome.bind_eq_ok.mpr ⟨parts, hrest, rfl⟩, rfl⟩
  · rintro ⟨first, rest, hfirst, hrest, rfl⟩
    obtain ⟨parts, hparts, h⟩ := Outcome.bind_eq_ok.mp hrest
    cases h
    exact Outcome.bind_eq_ok.mpr
      ⟨first :: parts, Outcome.mapM_cons_ok.mpr ⟨first, hfirst, parts, hparts, rfl⟩, rfl⟩

theorem level_cons {m : Member} {ms : List Member} {docs rest : List Document}
    (hm : m.layout data d = .ok docs) (hms : level ms data d = .ok rest) :
    level (m :: ms) data d = .ok (docs ++ rest) :=
  level_cons_eq_ok.mpr ⟨docs, rest, hm, hms, rfl⟩

/-- **A level is laid out** as its nodes that are not empty texts are. -/
theorem level_eq {stem : String} {start : Nat} {α : Type} {es : List α} {part : α → String × Node}
    (hes : numbered stem nodes start = es.map part) {docs : α → List Document}
    (h : ∀ x ∈ es, c.node (part x).2 data d = .ok (docs x)) :
    level (c.members nodes) data d = .ok (es.flatMap docs) := by
  induction nodes generalizing start es with
  | nil =>
    obtain rfl : es = [] := by simpa [numbered] using hes.symm
    rfl
  | cons n ns ih =>
    rw [numbered_cons] at hes
    by_cases hsilent : n.silent = true
    · rw [if_pos hsilent] at hes
      exact @level_cons _ _ _ _ [] _ (node_of_silent hsilent) (ih hes h)
    · rw [if_neg hsilent] at hes
      obtain ⟨x, xs, rfl, hx, hxs⟩ := List.map_eq_cons_iff.mp hes.symm
      have hn : c.node n data d = .ok (docs x) := by
        have hx' := h x (by simp)
        rwa [hx] at hx'
      exact level_cons hn (ih hxs.symm fun y hy => h y (List.mem_cons_of_mem _ hy))

/-! ### Entries -/

/-- **The entry of a level's value** under a field that the level binds: the identifier, or
what has been read for the field. -/
theorem entry_levelFields (hkeys : (classKey :: d.properties.map Property.name).Nodup) (id : String)
    {es : List (Node × Value)} {field : String} {p : Property} (hp : d.property? field = some p)
    {w : Value} (hw : boundValue? es field = some w) :
    entry (.object (levelFields d id es)) field =
      .ok (if d.identifier? = some field then .text id else w) := by
  have hmem : ∃ p ∈ d.properties, p.name = field :=
    ⟨p, Compiler.mem_of_property hp, by simpa using List.find?_some hp⟩
  have hfind := fun v => @find_levelFields d hkeys id es field v
  rw [entry]
  split
  · rename_i hkey
    rw [(hfind (.text id)).mpr ⟨rfl, .inr (.inl ⟨hkey, rfl⟩)⟩]
    rfl
  · rename_i hkey
    by_cases hnull : w.isNull = true
    · -- null is left out
      have hnone : Table.find? (levelFields d id es) field = none := by
        cases hsome : Table.find? (levelFields d id es) field with
        | none => rfl
        | some v =>
          obtain ⟨hv, ⟨hclass, _⟩ | ⟨hidentifier, _⟩ | ⟨_, _, hbound⟩⟩ := (hfind v).mp hsome
          · obtain ⟨q, hq, hname⟩ := hmem
            exact absurd (List.mem_map.mpr ⟨q, hq, hname.trans hclass⟩) (List.nodup_cons.mp hkeys).1
          · exact absurd hidentifier hkey
          · rw [hw, Option.some.injEq] at hbound
            rw [← hbound, hnull] at hv
            cases hv
      cases w with
      | null =>
        rw [hnone]
        rfl
      | _ => cases hnull
    · rw [(hfind w).mpr ⟨by simpa using hnull, .inr (.inr ⟨hmem, hkey, hw⟩)⟩]
      rfl

/-! ### Single nodes -/

section Single

variable {field : String} {p : Property} {v : Value}

theorem property_eq (hp : d.property? field = some p) : property d field = .ok p := by
  rw [property, hp]

/-- The type of a value is the one that the value names. -/
theorem valueType_eq {e : SchemaType} (he : c.catalog.types.find? e.fqn = some e)
    {fields : List (String × Value)} (hclass : Table.find? fields classKey = some (.text e.fqn)) :
    c.valueType p (.object fields) = .ok e := by
  simp [valueType, Value.get?, hclass, Catalog.get, he]

/-- A text that depends on a truth value. -/
theorem conditional_eq (hp : d.property? field = some p) (hv : entry data field = .ok v)
    (whenTrue whenFalse : String) : ∃ doc, conditional field whenTrue whenFalse data d = .ok [doc] ∧
      run [doc] = (if v.isSet then whenTrue else whenFalse).toList := by
  refine ⟨_, Outcome.bind_eq_ok.mpr ⟨p, property_eq hp, Outcome.bind_eq_ok.mpr ⟨v, hv, rfl⟩⟩, ?_⟩
  simp [run, @plainText_leaf .conditional rfl]

/-- A value is laid out as what is written for it. -/
theorem boundValue_eq (hp : d.property? field = some p) (hv : entry data field = .ok v)
    {format : Option String} {text : String}
    (htext : c.catalog.writeProperty c.settings p v format = .ok text) :
    ∃ doc, c.boundValue field format data d = .ok [doc] ∧ run [doc] = text.toList := by
  refine ⟨_, Outcome.bind_eq_ok.mpr ⟨p, property_eq hp, Outcome.bind_eq_ok.mpr ⟨v, hv,
    Outcome.bind_eq_ok.mpr ⟨text, htext, rfl⟩⟩⟩, ?_⟩
  simp [run, @plainText_leaf .variable rfl]

/-- A block that is no list is laid out as a level of its own. -/
theorem node_nested {kind : BlockKind} (hkind : ∀ style, kind ≠ .list style) (field : String)
    (nodes : List Node) (place : Text.Position) : ∃ k, k.isLeaf = false ∧ k ≠ .document ∧
      c.node (.block kind field nodes place) = c.nested k field (c.members nodes) := by
  cases kind with
  | clause => exact ⟨.clause, rfl, by decide, rfl⟩
  | within => exact ⟨.within, rfl, by decide, rfl⟩
  | list style => exact absurd rfl (hkind style)

/-- A block for no value is empty. -/
theorem nested_null (hp : d.property? field = some p) (hv : entry data field = .ok .null)
    (kind : DocumentKind) (ms : List Member) : c.nested kind field ms data d =
      .ok [.node kind none (some field) .null [] []] :=
  Outcome.bind_eq_ok.mpr ⟨p, property_eq hp, Outcome.bind_eq_ok.mpr ⟨.null, hv, rfl⟩⟩

/-- A block for a value is laid out by the type that the value names. -/
theorem nested_eq (hp : d.property? field = some p) (hv : entry data field = .ok v)
    (hnull : v.isNull = false) {e : SchemaType} (he : c.valueType p v = .ok e) {ms : List Member}
    {docs : List Document} (hdocs : level ms v e = .ok docs) (kind : DocumentKind) :
    c.nested kind field ms data d = .ok [.node kind none (some field) .null [] docs] := by
  refine Outcome.bind_eq_ok.mpr ⟨p, property_eq hp, Outcome.bind_eq_ok.mpr ⟨v, hv, ?_⟩⟩
  simp only [hnull]
  exact Outcome.bind_eq_ok.mpr ⟨e, he, Outcome.bind_eq_ok.mpr ⟨docs, hdocs, rfl⟩⟩

/-- An item is laid out with the text in front of it. -/
theorem item_eq {e : SchemaType} (he : c.valueType p v = .ok e) {start : String}
    {led : List Node} (hled : lead start nodes = .ok led) {docs : List Document}
    (hdocs : level (c.members led) v e = .ok docs) :
    c.item p start (c.members nodes) v = .ok (.node .listItem none none .null [] docs) := by
  refine Outcome.bind_eq_ok.mpr ⟨c.members led, ?_, Outcome.bind_eq_ok.mpr ⟨e, he,
    Outcome.bind_eq_ok.mpr ⟨docs, hdocs, rfl⟩⟩⟩
  rw [lead_members, hled]
  rfl

/-- **A list is laid out** as its first item and the others. -/
theorem list_eq {style : ListStyle} (hp : d.property? field = some p) {w : Value}
    {ws : List Value} (hv : entry data field = .ok (.list (w :: ws))) {ms : List Member}
    {first : Document} (hfirst : c.item p (style.leads c.settings).1 ms w = .ok first)
    {later : Value → Document}
    (hlater : ∀ v ∈ ws, c.item p (style.leads c.settings).2 ms v = .ok (later v)) :
    ∃ doc, c.list style field ms data d = .ok [doc] ∧
      run [doc] = first.plainText.toList ++ run (ws.map later) := by
  have hitems : (w :: ws).zipIdx.mapM (fun e => c.item p
      (if e.2 = 0 then (style.leads c.settings).1 else (style.leads c.settings).2) ms e.1) =
        .ok (first :: ws.map later) := by
    rw [List.zipIdx_cons, Outcome.mapM_cons_ok]
    refine ⟨first, hfirst, ws.map later, ?_, rfl⟩
    have hrest : (ws.zipIdx 1).map (fun e => later e.1) = ws.map later := by
      conv_rhs => rw [← List.zipIdx_map_fst 1 ws, List.map_map]
      rfl
    rw [← hrest]
    refine Outcome.mapM_eq_ok_map fun e he => ?_
    obtain ⟨hpos, _, hget⟩ := List.mem_zipIdx he
    rw [if_neg (by omega)]
    exact hlater e.1 (hget ▸ List.getElem_mem _)
  refine ⟨_, Outcome.bind_eq_ok.mpr ⟨p, property_eq hp, Outcome.bind_eq_ok.mpr ⟨_, hv,
    Outcome.bind_eq_ok.mpr ⟨_, rfl, Outcome.bind_eq_ok.mpr ⟨_, hitems, rfl⟩⟩⟩⟩, ?_⟩
  simp [run, @plainText_inner .list rfl (by decide)]

end Single

/-! ### Whole documents -/

section Kinds

variable {docs : List Document}

theorem kind_of_single {kind : DocumentKind} {text? name? : Option String} {value : Value}
    {attributes : List (String × Value)} {children : List Document} (hkind : kind ≠ .paragraph)
    (h : .ok [.node kind text? name? value attributes children] = (.ok docs : Outcome _)) :
    ∀ x ∈ docs, x.kind ≠ .paragraph := by
  cases h
  exact List.forall_mem_singleton.mpr hkind

theorem kind_of_conditional {field whenTrue whenFalse : String}
    (h : conditional field whenTrue whenFalse data d = .ok docs) :
    ∀ x ∈ docs, x.kind ≠ .paragraph := by
  obtain ⟨_, _, h⟩ := Outcome.bind_eq_ok.mp h
  obtain ⟨v, _, h⟩ := Outcome.bind_eq_ok.mp h
  exact kind_of_single (by simp) h

theorem kind_of_boundValue {field : String} {format : Option String}
    (h : c.boundValue field format data d = .ok docs) : ∀ x ∈ docs, x.kind ≠ .paragraph := by
  obtain ⟨p, _, h⟩ := Outcome.bind_eq_ok.mp h
  obtain ⟨v, _, h⟩ := Outcome.bind_eq_ok.mp h
  obtain ⟨text, _, h⟩ := Outcome.bind_eq_ok.mp h
  exact kind_of_single (by simp) h

theorem kind_of_nested {kind : DocumentKind} (hkind : kind ≠ .paragraph) {field : String}
    {ms : List Member} (h : c.nested kind field ms data d = .ok docs) :
    ∀ x ∈ docs, x.kind ≠ .paragraph := by
  obtain ⟨p, _, h⟩ := Outcome.bind_eq_ok.mp h
  obtain ⟨v, _, h⟩ := Outcome.bind_eq_ok.mp h
  simp only at h
  split at h
  · obtain ⟨children, _, h⟩ := Outcome.bind_eq_ok.mp h
    exact kind_of_single hkind h
  · obtain ⟨_, _, h⟩ := Outcome.bind_eq_ok.mp h
    obtain ⟨children, _, h⟩ := Outcome.bind_eq_ok.mp h
    exact kind_of_single hkind h

theorem kind_of_list {style : ListStyle} {field : String} {ms : List Member}
    (h : c.list style field ms data d = .ok docs) : ∀ x ∈ docs, x.kind ≠ .paragraph := by
  obtain ⟨p, _, h⟩ := Outcome.bind_eq_ok.mp h
  obtain ⟨v, _, h⟩ := Outcome.bind_eq_ok.mp h
  simp only at h
  split at h
  · obtain ⟨_, _, h⟩ := Outcome.bind_eq_ok.mp h
    obtain ⟨children, _, h⟩ := Outcome.bind_eq_ok.mp h
    exact kind_of_single (by simp) h
  · obtain ⟨_, _, h⟩ := Outcome.bind_eq_ok.mp h
    obtain ⟨children, _, h⟩ := Outcome.bind_eq_ok.mp h
    exact kind_of_single (by simp) h

/-- **No node is laid out as a paragraph.** -/
theorem kind_of_node {n : Node} (h : c.node n data d = .ok docs) :
    ∀ x ∈ docs, x.kind ≠ .paragraph := by
  cases n with
  | text body last place =>
    rw [node] at h
    unfold text at h
    split at h
    · cases h
      simp
    · exact kind_of_single (by simp) h
  | binding field format place => exact kind_of_boundValue h
  | formatted field format place => exact kind_of_boundValue h
  | shown field whenTrue place => exact kind_of_conditional h
  | choice field whenTrue whenFalse place => exact kind_of_conditional h
  | block kind field nested place =>
    cases kind with
    | clause => exact kind_of_nested (by simp) h
    | within => exact kind_of_nested (by simp) h
    | list style => exact kind_of_list h
  | expression body place => exact kind_of_single (by simp) h
  | foreign kind field line column =>
    obtain ⟨field, _, h⟩ := Outcome.bind_eq_ok.mp h
    obtain ⟨_, _, h⟩ := Outcome.bind_eq_ok.mp h
    cases h

end Kinds

/-- **The text of a whole document** is that of its parts. -/
theorem draft_eq {docs : List Document} (h : level (c.members nodes) data d = .ok docs) :
    c.draft nodes data d = .ok (ofChildren docs) ∧ (ofChildren docs).plainText.toList = run docs := by
  refine ⟨by rw [draft, h]; rfl, ?_⟩
  have hkinds : ∀ x ∈ docs, x.kind ≠ .paragraph := by
    rw [level, members_eq_map] at h
    obtain ⟨parts, hparts, h⟩ := Outcome.bind_eq_ok.mp h
    cases h
    intro x hx
    obtain ⟨part, hpart, hx⟩ := List.mem_flatten.mp hx
    obtain ⟨m, hm, hnode⟩ := Outcome.exists_of_mem_mapM hparts hpart
    obtain ⟨n, _, rfl⟩ := List.mem_map.mp hm
    exact kind_of_node hnode x hx
  rw [ofChildren, plainText, if_neg (by decide)]
  cases docs with
  | nil => split <;> rfl
  | cons x xs =>
    have hparagraphs : areParagraphs (x :: xs) = false := by
      simp [areParagraphs, hkinds x (by simp)]
    rw [if_neg (by simp [hparagraphs]), join_plainTexts]

end Drafter

end Covenant
