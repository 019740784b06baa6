import Covenant.Proofs.Markup.Ruled
import Covenant.Proofs.Schema.Written

/-!
What the rules of a template read.

* `level_value`, `reads_level`: the value of a level holds the name of its type, an
  identifier, and each property from the first node that binds it.
* `find_levelFields`: the entries of such a value.
* `reads_branch_iff`: a node that depends on a truth value reads the text of either.
* `items_value`, `items_read`, `reads_items`: a list reads its first item and then the others.
-/

namespace Covenant.Markup

variable {s : RuleSet} {ctx : ReadingContext}

/-! ### Nodes with rules -/

theorem numbered_cons (stem : String) (n : Node) (ns : List Node) (start : Nat) :
    numbered stem (n :: ns) start =
      if n.silent then numbered stem ns (start + 1)
      else (stem ++ toString start, n) :: numbered stem ns (start + 1) := by
  simp only [numbered, List.zipIdx_cons, List.filterMap_cons]
  split <;> simp_all

theorem mem_of_numbered {stem : String} {nodes : List Node} {start : Nat} {m : String × Node}
    (h : m ∈ numbered stem nodes start) : m.2 ∈ nodes ∧ m.2.silent = false := by
  obtain ⟨⟨n, i⟩, hn, hm⟩ := List.mem_filterMap.mp h
  split at hm
  · cases hm
  · cases hm
    obtain ⟨_, _, hget⟩ := List.mem_zipIdx hn
    exact ⟨hget ▸ List.getElem_mem _, by simpa using ‹¬ n.silent = true›⟩

/-- The fields that a level binds are those that its rules read. -/
theorem fields_numbered (stem : String) (nodes : List Node) (start : Nat) :
    (numbered stem nodes start).filterMap (fun m => m.2.field?) = nodes.filterMap Node.field? := by
  induction nodes generalizing start with
  | nil => rfl
  | cons n ns ih =>
    rw [numbered_cons, List.filterMap_cons]
    split
    · rename_i hsilent
      obtain ⟨last, place, rfl⟩ := Compiler.silent_iff.mp hsilent
      exact ih (start + 1)
    · rw [List.filterMap_cons, ih]

/-- The first node for a property among those that have rules. -/
theorem find_numbered (stem : String) (nodes : List Node) (start : Nat) (field : String) :
    ((numbered stem nodes start).find? fun m => m.2.field? == some field).map Prod.snd =
      nodes.find? fun n => n.field? == some field := by
  induction nodes generalizing start with
  | nil => rfl
  | cons n ns ih =>
    rw [numbered_cons]
    by_cases hsilent : n.silent = true
    · obtain ⟨last, place, rfl⟩ := Compiler.silent_iff.mp hsilent
      rw [if_pos hsilent, ih, List.find?_cons_of_neg (by simp [Node.field?])]
    · rw [if_neg hsilent]
      by_cases hfield : n.field? = some field
      · rw [List.find?_cons_of_pos (by simp [hfield]), List.find?_cons_of_pos (by simp [hfield])]
        rfl
      · rw [List.find?_cons_of_neg (by simp [hfield]), List.find?_cons_of_neg (by simp [hfield]), ih]

/-- The rules of a level have names of their own. -/
theorem nodup_numbered (stem : String) (nodes : List Node) (start : Nat) :
    ((numbered stem nodes start).map Prod.fst).Nodup := by
  induction nodes generalizing start with
  | nil => simp [numbered]
  | cons n ns ih =>
    rw [numbered_cons]
    split
    · exact ih (start + 1)
    · rw [List.map_cons, List.nodup_cons]
      refine ⟨fun h => ?_, ih (start + 1)⟩
      obtain ⟨⟨_, _⟩, hm, hname⟩ := List.mem_map.mp h
      obtain ⟨⟨q, i⟩, hq, hm⟩ := List.mem_filterMap.mp hm
      have hle := (List.mem_zipIdx hq).1
      split at hm
      · cases hm
      · cases hm
        have hindex : toString i = toString start := by
          simpa [String.ext_iff] using hname
        have hnum := Nat.repr_injective hindex
        omega

/-! ### Values of levels -/

/-- The value of the first node that binds a field. -/
def boundValue? (es : List (Node × Value)) (field : String) : Option Value :=
  (es.find? fun e => e.1.field? == some field).map Prod.snd

/-- The entry of the identifier of a level's value, if its type has one. -/
def identifierEntry (d : SchemaType) (id : String) : List (String × Value) :=
  (d.identifier?.map fun key => (key, Value.text id)).toList

/-- The entries of the properties that a level binds, the identifier apart. -/
def boundEntries (d : SchemaType) (es : List (Node × Value)) : List (String × Value) :=
  d.properties.filterMap fun p =>
    if d.identifier? = some p.name then none else (boundValue? es p.name).map (p.name, ·)

/-- The entries of the value of a level whose nodes have the values in `es`. -/
def levelFields (d : SchemaType) (id : String) (es : List (Node × Value)) :
    List (String × Value) :=
  ((classKey, .text d.fqn) :: (identifierEntry d id ++ boundEntries d es)).filter
    fun e => !e.2.isNull

theorem lookup_boundParts (parts : List (String × Node)) (field : String) :
    (boundParts parts).lookup field =
      (parts.find? fun e => e.2.field? == some field).map Prod.fst := by
  induction parts with
  | nil => rfl
  | cons e parts ih =>
    rw [boundParts, List.filterMap_cons]
    cases hfield : e.2.field? with
    | none =>
      rw [List.find?_cons_of_neg (by simp [hfield])]
      exact ih
    | some f =>
      simp only [Option.map_some]
      by_cases hf : f = field
      · rw [List.find?_cons_of_pos (by simp [hfield, hf]), hf]
        simp
      · have hne : (field == f) = false := beq_false_of_ne (Ne.symm hf)
        rw [List.find?_cons_of_neg (by simp [hfield, hf]), List.lookup_cons, hne]
        exact ih

theorem boundValue_map {α : Type} (node : α → Node) (value : α → Value) (es : List α)
    (field : String) : boundValue? (es.map fun e => (node e, value e)) field =
      (es.find? fun e => (node e).field? == some field).map value := by
  rw [boundValue?, List.find?_map, Option.map_map]
  rfl

/-- The value of a field is that of a node that binds it. -/
theorem exists_of_boundValue {α : Type} {node : α → Node} {value : α → Value} {es : List α}
    {field : String} {v : Value}
    (h : boundValue? (es.map fun e => (node e, value e)) field = some v) :
    ∃ e ∈ es, (node e).field? = some field ∧ value e = v := by
  rw [boundValue_map, Option.map_eq_some_iff] at h
  obtain ⟨e, he, rfl⟩ := h
  exact ⟨e, List.mem_of_find?_eq_some he, by simpa using List.find?_some he, rfl⟩

/-- The first node of a level for a property is the first one for it that is read, also if there is a
text in front of the level. -/
theorem find_read {start stem : String} {level nodes : List Node} (hled : lead start level = .ok nodes)
    {es : List ((String × Node) × Value)} (hes : numbered stem nodes = es.map Prod.fst)
    (field : String) : level.find? (fun n => n.field? == some field) =
      (es.find? fun e => e.1.2.field? == some field).map fun e => e.1.2 := by
  rw [← find_lead hled, ← find_numbered stem nodes 0, hes, List.find?_map, Option.map_map]
  rfl

/-- **A property that a level has a node for** has the value of the first one for it. -/
theorem exists_first {start stem : String} {level nodes : List Node}
    (hled : lead start level = .ok nodes) {es : List ((String × Node) × Value)}
    (hes : numbered stem nodes = es.map Prod.fst) {m : String × Node}
    (hm : m ∈ numbered stem nodes) {field : String} (hfield : m.2.field? = some field) :
    ∃ e ∈ es, e.1.2.field? = some field ∧
      level.find? (fun n => n.field? == some field) = some e.1.2 ∧
      boundValue? (es.map fun e => (e.1.2, e.2)) field = some e.2 := by
  obtain ⟨e, he⟩ : ∃ e, es.find? (fun e => e.1.2.field? == some field) = some e := by
    obtain ⟨e, he, rfl⟩ := List.mem_map.mp (hes ▸ hm)
    exact Option.isSome_iff_exists.mp (List.find?_isSome.mpr ⟨e, he, by simp [hfield]⟩)
  refine ⟨e, List.mem_of_find?_eq_some he, by simpa using List.find?_some he, ?_, ?_⟩
  · rw [find_read hled hes, he]
    rfl
  · rw [boundValue_map, he]
    rfl

/-- The argument that refers to a node takes the value of the node. -/
theorem bind_ref {es : List ((String × Node) × Value)}
    (hnames : (es.map fun e => e.1.1).Nodup) {e : (String × Node) × Value} (he : e ∈ es) :
    Action.bind (es.map fun e => Symbol.rule e.1.1) (es.map Prod.snd) (.ref e.1.1) = .ok e.2 := by
  obtain ⟨i, hi, rfl⟩ := List.mem_iff_getElem.mp he
  have hindex : (es.map fun e => Symbol.rule e.1.1).findIdx? (·.refersTo es[i].1.1) = some i := by
    rw [List.findIdx?_eq_some_iff_getElem]
    refine ⟨by simpa using hi, by simp [Symbol.refersTo, Symbol.rule], fun j hj => ?_⟩
    have hne : es[j].1.1 ≠ es[i].1.1 := by
      intro heq
      have hlt : j < es.length := hj.trans hi
      have hij : j = i := (@List.Nodup.getElem_inj_iff _ _ hnames j (by simpa using hlt) i
        (by simpa using hi)).mp (by simpa using heq)
      omega
    simp [Symbol.refersTo, Symbol.rule, hne]
  simp [Action.bind, hindex, Outcome.ofOption, hi]

theorem mem_identifier {d : SchemaType} {key : String} (h : d.identifier? = some key) :
    key ∈ d.properties.map Property.name := by
  obtain ⟨p, hp, rfl⟩ := Option.map_eq_some_iff.mp h
  exact List.mem_map_of_mem (List.mem_of_find?_eq_some hp)

theorem mem_identifierEntry {d : SchemaType} {id : String} {e : String × Value} :
    e ∈ identifierEntry d id ↔ d.identifier? = some e.1 ∧ e.2 = .text id := by
  rw [identifierEntry, Option.mem_toList, Option.map_eq_some_iff]
  constructor
  · rintro ⟨key, hkey, rfl⟩
    exact ⟨hkey, rfl⟩
  · rintro ⟨hkey, hvalue⟩
    exact ⟨e.1, hkey, Prod.ext rfl hvalue.symm⟩

theorem mem_boundEntries {d : SchemaType} {es : List (Node × Value)} {e : String × Value} :
    e ∈ boundEntries d es ↔ (∃ p ∈ d.properties, p.name = e.1) ∧ d.identifier? ≠ some e.1 ∧
      boundValue? es e.1 = some e.2 := by
  rw [boundEntries, List.mem_filterMap]
  constructor
  · rintro ⟨p, hp, h⟩
    split at h
    · cases h
    · rename_i hidentifier
      obtain ⟨v, hv, rfl⟩ := Option.map_eq_some_iff.mp h
      exact ⟨⟨p, hp, rfl⟩, hidentifier, hv⟩
  · rintro ⟨⟨p, hp, hname⟩, hidentifier, hvalue⟩
    exact ⟨p, hp, by rw [hname, if_neg hidentifier, hvalue]; rfl⟩

/-- The value of the node that binds a field. -/
theorem boundValue_of_mem {α : Type} {node : α → Node} {value : α → Value} {es : List α}
    (honce : (es.filterMap fun e => (node e).field?).Nodup) {e : α} (he : e ∈ es) {field : String}
    (hfield : (node e).field? = some field) :
    boundValue? (es.map fun e => (node e, value e)) field = some (value e) := by
  rw [boundValue_map]
  induction es with
  | nil => cases he
  | cons x es ih =>
    rw [List.filterMap_cons] at honce
    by_cases hx : (node x).field? = some field
    · rw [List.find?_cons_of_pos (by simp [hx])]
      rcases List.mem_cons.mp he with rfl | he
      · rfl
      · -- no later node binds the field
        rw [hx] at honce
        exact absurd (List.mem_filterMap.mpr ⟨e, he, hfield⟩) (List.nodup_cons.mp honce).1
    · rw [List.find?_cons_of_neg (by simp [hx])]
      rcases List.mem_cons.mp he with rfl | he
      · exact absurd hfield hx
      · refine ih ?_ he
        split at honce
        · exact honce
        · exact (List.nodup_cons.mp honce).2

section Keys

variable {d : SchemaType} (hkeys : (classKey :: d.properties.map Property.name).Nodup)

include hkeys

/-- The entries of the value of a level have names of their own. -/
theorem nodup_entries (id : String) (es : List (Node × Value)) : (Table.names
    ((classKey, .text d.fqn) :: (identifierEntry d id ++ boundEntries d es))).Nodup := by
  obtain ⟨hclass, hnames⟩ := List.nodup_cons.mp hkeys
  have hbound : ((boundEntries d es).map Prod.fst).Nodup := by
    refine List.Nodup.sublist ?_ hnames
    unfold boundEntries
    induction d.properties with
    | nil => exact List.Sublist.refl _
    | cons p ps ih =>
      rw [List.filterMap_cons, List.map_cons]
      split
      · exact ih.cons _
      · rename_i e he
        have hname : e.1 = p.name := by
          split at he
          · cases he
          · obtain ⟨v, _, rfl⟩ := Option.map_eq_some_iff.mp he
            rfl
        rw [List.map_cons, hname]
        exact ih.cons_cons _
  have hidentifier : ((identifierEntry d id).map Prod.fst).Nodup := by
    unfold identifierEntry
    cases d.identifier? <;> simp
  rw [Table.names, List.map_cons, List.map_append, List.nodup_cons, List.nodup_append]
  refine ⟨fun h => ?_, hidentifier, hbound, ?_⟩
  · have hclass : classKey ∉ d.properties.map Property.name := hclass
    rcases List.mem_append.mp h with h | h
    · obtain ⟨e, he, hname⟩ := List.mem_map.mp h
      have hmem := mem_identifier (mem_identifierEntry.mp he).1
      rw [hname] at hmem
      exact hclass hmem
    · obtain ⟨e, he, hname⟩ := List.mem_map.mp h
      obtain ⟨p, hp, hpname⟩ := (mem_boundEntries.mp he).1
      exact hclass (List.mem_map.mpr ⟨p, hp, hpname.trans hname⟩)
  · rintro a ha b hb rfl
    obtain ⟨e, he, hname⟩ := List.mem_map.mp ha
    obtain ⟨e', he', hname'⟩ := List.mem_map.mp hb
    exact (mem_boundEntries.mp he').2.1 (hname' ▸ hname ▸ (mem_identifierEntry.mp he).1)

/-- **The entries of the value of a level.** -/
theorem find_levelFields (id : String) (es : List (Node × Value)) {key : String} {v : Value} :
    Table.find? (levelFields d id es) key = some v ↔ v.isNull = false ∧
      ((key = classKey ∧ v = .text d.fqn) ∨ (d.identifier? = some key ∧ v = .text id) ∨
        (∃ p ∈ d.properties, p.name = key) ∧ d.identifier? ≠ some key ∧
          boundValue? es key = some v) := by
  have hnames : (Table.names (levelFields d id es)).Nodup :=
    (nodup_entries hkeys id es).sublist (List.filter_sublist.map _)
  rw [Table.find_eq_some_iff hnames, levelFields, List.mem_filter, List.mem_cons, List.mem_append,
    mem_identifierEntry, mem_boundEntries, Prod.mk.injEq]
  simp only [Bool.not_eq_true']
  exact and_comm

/-- The value of a level names its type. -/
theorem class_levelFields (id : String) (es : List (Node × Value)) :
    Table.find? (levelFields d id es) classKey = some (.text d.fqn) :=
  (find_levelFields hkeys id es).mpr ⟨rfl, .inl ⟨rfl, rfl⟩⟩

/-- **The rule of a level** builds its value from those of its nodes. -/
theorem apply_levelRule (stem id : String) {es : List ((String × Node) × Value)}
    (hnames : (es.map fun e => e.1.1).Nodup) :
    (levelRule d stem id (es.map Prod.fst)).apply ctx (es.map fun e => .rule e.1.1)
      (es.map Prod.snd) = .ok (.object (levelFields d id (es.map fun e => (e.1.2, e.2)))) := by
  have hargs : (levelArguments d id (es.map Prod.fst)).mapM (fun q =>
      (Action.bind (es.map fun e => Symbol.rule e.1.1) (es.map Prod.snd) q.source).map (q.key, ·)) =
      .ok ((classKey, .text d.fqn) ::
        (identifierEntry d id ++ boundEntries d (es.map fun e => (e.1.2, e.2)))) := by
    rw [Outcome.mapM_eq_ok_iff]
    have hsame : List.Forall₂ Eq d.properties d.properties := List.forall₂_same.mpr fun _ _ => rfl
    refine .cons rfl (List.rel_append ?_ (List.rel_filterMap (fun p q hpq => ?_) hsame))
    · unfold identifierEntry
      cases d.identifier? with
      | none => exact .nil
      | some key => exact .cons rfl .nil
    · subst hpq
      by_cases hidentifier : d.identifier? = some p.name
      · rw [if_pos hidentifier, if_pos hidentifier]
        exact .none
      · rw [if_neg hidentifier, if_neg hidentifier, lookup_boundParts, boundValue_map, List.find?_map]
        cases hfind : es.find? fun e => e.1.2.field? == some p.name with
        | none =>
          rw [show (es.find? ((fun e => e.2.field? == some p.name) ∘ Prod.fst)) = none from hfind]
          exact .none
        | some e =>
          rw [show (es.find? ((fun e => e.2.field? == some p.name) ∘ Prod.fst)) = some e from hfind]
          refine .some ?_
          rw [bind_ref hnames (List.mem_of_find?_eq_some hfind)]
          rfl
  refine Outcome.bind_eq_ok.mpr ⟨_, hargs, ?_⟩
  rw [Table.ofList_eq_self (nodup_entries hkeys id _)]
  rfl

end Keys

/-- **The value of a level** depends on what its nodes read, but for the one that binds the
identifier. -/
theorem levelFields_congr {d : SchemaType} (id : String) {α : Type} {es : List α} {node : α → Node}
    {value other : α → Value} (h : ∀ e ∈ es, ∀ f, (node e).field? = some f →
      d.identifier? ≠ some f → value e = other e) :
    levelFields d id (es.map fun e => (node e, value e)) =
      levelFields d id (es.map fun e => (node e, other e)) := by
  have hbound : boundEntries d (es.map fun e => (node e, value e)) =
      boundEntries d (es.map fun e => (node e, other e)) := by
    unfold boundEntries
    refine List.filterMap_congr fun p _ => ?_
    by_cases hidentifier : d.identifier? = some p.name
    · rw [if_pos hidentifier, if_pos hidentifier]
    · rw [if_neg hidentifier, if_neg hidentifier, boundValue_map, boundValue_map]
      cases hfind : es.find? fun e => (node e).field? == some p.name with
      | none => rfl
      | some e =>
        have hfield : (node e).field? = some p.name := by simpa using List.find?_some hfind
        simp [h e (List.mem_of_find?_eq_some hfind) _ hfield hidentifier]
  rw [levelFields, hbound, levelFields]

/-! ### Levels -/

section Level

variable {d : SchemaType} {stem id : String} {nodes : List Node}

/-- **The value of a level** is made of those that its nodes read. -/
theorem level_value (hkeys : (classKey :: d.properties.map Property.name).Nodup)
    (hrule : s.Holds (levelRule d stem id (numbered stem nodes))) {cs : List Char} {e : Derivation}
    {v : Value} (h : Derives s (.rule stem) cs e) (hv : e.evaluate s ctx = .ok v) :
    ∃ es : List ((String × Node) × Value), numbered stem nodes = es.map Prod.fst ∧
      v = .object (levelFields d id (es.map fun x => (x.1.2, x.2))) ∧
      ∀ x ∈ es, ∃ cs e', Derives s (.rule x.1.1) cs e' ∧ e'.within ⊆ e.inside ∧
        e'.evaluate s ctx = .ok x.2 := by
  obtain ⟨q, alternative, ds, vs, rfl, hq, hds, hvs, happly⟩ := Derivation.node_of_derives h hv hrule
  obtain rfl := List.mem_singleton.mp (List.mem_of_getElem? hq)
  obtain ⟨es, hes, rfl, hall⟩ := exists_of_derivesAll_map hds hvs
  have hnames : (es.map fun x => x.1.1).Nodup := by
    simpa [hes, Function.comp_def] using nodup_numbered stem nodes 0
  rw [hes, List.map_map, show (fun e : String × Node => Symbol.rule e.1) ∘ Prod.fst =
    fun x : (String × Node) × Value => Symbol.rule x.1.1 from rfl,
    apply_levelRule hkeys stem id hnames] at happly
  refine ⟨es, hes, (Except.ok.inj happly).symm, fun x hx => ?_⟩
  obtain ⟨cs, e', he', hd, hw⟩ := hall x hx
  exact ⟨cs, e', hd, Derivation.within_subset_withinAll he', hw⟩

/-- **A level reads** what its nodes read, one after the other. -/
theorem reads_level (hkeys : (classKey :: d.properties.map Property.name).Nodup)
    (hrule : s.Holds (levelRule d stem id (numbered stem nodes))) {α : Type} {es : List α}
    {part : α → String × Node} (hes : numbered stem nodes = es.map part) {value : α → Value}
    {text : α → List Char} (h : ∀ x ∈ es, Reads s ctx (.rule (part x).1) (text x) (value x)) :
    Reads s ctx (.rule stem) (es.flatMap text)
      (.object (levelFields d id (es.map fun x => ((part x).2, value x)))) := by
  have hnames : ((es.map fun x => (part x, value x)).map fun e => e.1.1).Nodup := by
    simpa [hes, Function.comp_def] using nodup_numbered stem nodes 0
  have happly := @apply_levelRule ctx d hkeys stem id _ hnames
  simp only [List.map_map, Function.comp_def] at happly
  rw [hes] at hrule
  refine @reads_rule s ctx stem _ hrule 0 (es.map fun x => .rule (part x).1) ?_ _ _
    (readsAll_map h) _ ?_
  · simp [levelRule, Function.comp_def]
  · exact happly

end Level

/-! ### Single nodes -/

section Single

variable {name target comment : String} {cardinality : Cardinality}

/-- The value of a node that stands for another rule is that of the other rule. -/
theorem reference_value (hrule : s.Holds (referenceRule name target comment cardinality))
    {cs : List Char} {e : Derivation} {v : Value} (h : Derives s (.rule name) cs e)
    (hv : e.evaluate s ctx = .ok v) : ∃ e', Derives s (.rule target cardinality) cs e' ∧
      e'.within ⊆ e.inside ∧ e'.evaluate s ctx = .ok v := by
  obtain ⟨q, alternative, ds, vs, rfl, hq, hds, hvs, happly⟩ := Derivation.node_of_derives h hv hrule
  obtain rfl := List.mem_singleton.mp (List.mem_of_getElem? hq)
  obtain ⟨e', rfl, he'⟩ := derivesAll_singleton_iff.mp hds
  obtain ⟨w, hw, rfl⟩ := Derivation.evaluateAll_singleton_eq_ok.mp hvs
  cases happly
  exact ⟨e', he', Derivation.within_subset_withinAll (by simp), hw⟩

theorem reads_reference (hrule : s.Holds (referenceRule name target comment cardinality))
    {cs : List Char} {v : Value} (h : Reads s ctx (.rule target cardinality) cs v) :
    Reads s ctx (.rule name) cs v :=
  reads_rule hrule (q := 0) rfl (readsAll_singleton h) rfl

/-- A literal reads its text. -/
theorem reads_literal_iff {text : String} {cs : List Char} {v : Value} :
    Reads s ctx (.literal text) cs v ↔ cs = text.toList ∧ v = .text text := by
  constructor
  · rintro ⟨d, hd, hv⟩
    obtain ⟨haccepts, rfl⟩ := (derives_token_iff (by simp [Symbol.literal]) rfl).mp hd
    have htext : cs = text.toList := Symbol.accepts_literal_iff.mp haccepts
    cases hv
    exact ⟨htext, by rw [htext, String.ofList_toList]⟩
  · rintro ⟨rfl, rfl⟩
    have haccepts : (Symbol.literal text).Accepts text.toList := Symbol.accepts_literal_iff.mpr rfl
    have hread : Reads s ctx (.literal text) text.toList _ :=
      reads_token (by simp [Symbol.literal]) rfl haccepts
    simpa using hread

/-- **A text reads itself.** -/
theorem reads_textRule {body : String} (hrule : s.Holds (Compiler.textRule body name)) :
    Reads s ctx (.rule name) body.toList (.text body) := by
  exact reads_rule hrule (q := 0) rfl (readsAll_singleton (reads_literal_iff.mpr ⟨rfl, rfl⟩)) rfl

/-- What a rule of a single symbol, or a choice between such, reads. -/
theorem reads_choice_iff {r : Rule} (hfind : s.find? name = some r) {symbols : List Symbol}
    (hsymbols : r.alternatives = symbols.map fun x => [x]) {cs : List Char} {v : Value} :
    Reads s ctx (.rule name) cs v ↔
      ∃ x ∈ symbols, ∃ w, Reads s ctx x cs w ∧ r.apply ctx [x] [w] = .ok v := by
  constructor
  · rintro ⟨e, he, hv⟩
    obtain ⟨q, alternative, ds, vs, rfl, hq, hds, hvs, happly⟩ := Derivation.node_of_derives he hv hfind
    obtain ⟨x, hx, rfl⟩ := List.mem_map.mp (hsymbols ▸ List.mem_of_getElem? hq)
    obtain ⟨d, rfl, hd⟩ := derivesAll_singleton_iff.mp hds
    obtain ⟨w, hw, rfl⟩ := Derivation.evaluateAll_singleton_eq_ok.mp hvs
    exact ⟨x, hx, w, ⟨d, hd, hw⟩, happly⟩
  · rintro ⟨x, hx, w, h, happly⟩
    obtain ⟨q, hq⟩ := List.mem_iff_getElem?.mp hx
    exact reads_rule hfind (q := q) (by simp [hsymbols, hq]) (readsAll_singleton h) happly

/-- An optional literal reads its text or nothing. -/
theorem reads_optional_iff {text : String} {cs : List Char} {v : Value} :
    Reads s ctx (.literal text .optional) cs v ↔
      (cs = [] ∧ v = .null) ∨ (cs = text.toList ∧ v = .text text) := by
  rw [← @reads_literal_iff s ctx]
  constructor
  · rintro ⟨d, hd, hv⟩
    rcases (derives_optional_iff rfl).mp hd with ⟨rfl, rfl⟩ | hd
    · cases hv
      exact .inl ⟨rfl, rfl⟩
    · exact .inr ⟨d, hd, hv⟩
  · rintro (⟨rfl, rfl⟩ | h)
    · exact reads_absent rfl
    · exact reads_present rfl h

theorem branchRule_name (whenTrue whenFalse : String) :
    (branchRule comment whenTrue whenFalse name).name = name := by
  unfold branchRule
  split
  rfl

/-- A rule of a single text that may be left out, where `b` is what it tells then. -/
theorem reads_present_iff {r : Rule} (hfind : s.find? name = some r) {text : String} {b : Bool}
    (halternatives : r.alternatives = [[.literal text .optional]])
    (habsent : r.apply ctx [.literal text .optional] [.null] = .ok (.bool b))
    (hpresent : r.apply ctx [.literal text .optional] [.text text] = .ok (.bool !b))
    {cs : List Char} {v : Value} : Reads s ctx (.rule name) cs v ↔
      (v = .bool b ∧ cs = []) ∨ (v = .bool !b ∧ cs = text.toList) := by
  have hsymbols : r.alternatives = [Symbol.literal text .optional].map fun x => [x] := halternatives
  rw [reads_choice_iff hfind hsymbols]
  simp only [List.mem_singleton, exists_eq_left, reads_optional_iff]
  constructor
  · rintro ⟨w, ⟨rfl, rfl⟩ | ⟨rfl, rfl⟩, happly⟩
    · exact .inl ⟨Except.ok.inj (happly.symm.trans habsent), rfl⟩
    · exact .inr ⟨Except.ok.inj (happly.symm.trans hpresent), rfl⟩
  · rintro (⟨rfl, rfl⟩ | ⟨rfl, rfl⟩)
    · exact ⟨.null, .inl ⟨rfl, rfl⟩, habsent⟩
    · exact ⟨.text text, .inr ⟨rfl, rfl⟩, hpresent⟩

/-- A rule of two texts that tells which of them is there. -/
theorem reads_either_iff {r : Rule} (hfind : s.find? name = some r) {whenTrue whenFalse : String}
    (htexts : whenTrue ≠ whenFalse)
    (halternatives : r.alternatives = [[.literal whenTrue], [.literal whenFalse]])
    (happly : ∀ x text, r.apply ctx [x] [.text text] = .ok (.bool (text == whenTrue)))
    {cs : List Char} {v : Value} : Reads s ctx (.rule name) cs v ↔
      (v = .bool false ∧ cs = whenFalse.toList) ∨ (v = .bool true ∧ cs = whenTrue.toList) := by
  have hsymbols : r.alternatives = [Symbol.literal whenTrue, .literal whenFalse].map fun x => [x] :=
    halternatives
  have htrue : ∀ x, r.apply ctx [x] [.text whenTrue] = .ok (.bool true) := fun x => by
    rw [happly, beq_self_eq_true]
  have hfalse : ∀ x, r.apply ctx [x] [.text whenFalse] = .ok (.bool false) := fun x => by
    rw [happly, beq_false_of_ne (Ne.symm htexts)]
  rw [reads_choice_iff hfind hsymbols]
  constructor
  · rintro ⟨x, hx, w, h, hv⟩
    rcases List.mem_pair.mp hx with rfl | rfl
    · obtain ⟨rfl, rfl⟩ := reads_literal_iff.mp h
      exact .inr ⟨Except.ok.inj (hv.symm.trans (htrue _)), rfl⟩
    · obtain ⟨rfl, rfl⟩ := reads_literal_iff.mp h
      exact .inl ⟨Except.ok.inj (hv.symm.trans (hfalse _)), rfl⟩
  · rintro (⟨rfl, rfl⟩ | ⟨rfl, rfl⟩)
    · exact ⟨.literal whenFalse, by simp, _, reads_literal_iff.mpr ⟨rfl, rfl⟩, hfalse _⟩
    · exact ⟨.literal whenTrue, by simp, _, reads_literal_iff.mpr ⟨rfl, rfl⟩, htrue _⟩

/-- **A node that depends on a truth value** reads the text of either, and tells which. -/
theorem reads_branch_iff {whenTrue whenFalse : String} (htexts : whenTrue ≠ whenFalse)
    (hrule : s.Holds (branchRule comment whenTrue whenFalse name)) {cs : List Char} {v : Value} :
    Reads s ctx (.rule name) cs v ↔
      ∃ b : Bool, v = .bool b ∧ cs = (if b then whenTrue else whenFalse).toList := by
  rw [RuleSet.Holds, branchRule_name] at hrule
  rw [Bool.exists_bool]
  by_cases hfalse : whenFalse = ""
  · subst hfalse
    have heq : branchRule comment whenTrue "" name =
        { name, alternatives := [[.literal whenTrue .optional]], action := some ⟨"present", []⟩
          comment := some comment } := by
      simp [branchRule]
    rw [heq] at hrule
    exact reads_present_iff (b := false) hrule rfl rfl rfl
  have hnotFalse : whenFalse.isEmpty = false := by simpa using hfalse
  by_cases htrue : whenTrue = ""
  · subst htrue
    have heq : branchRule comment "" whenFalse name =
        { name, alternatives := [[.literal whenFalse .optional]], action := some ⟨"absent", []⟩
          comment := some comment } := by
      simp [branchRule, hnotFalse]
    rw [heq] at hrule
    exact (reads_present_iff (b := true) hrule rfl rfl rfl).trans or_comm
  · have hnotTrue : whenTrue.isEmpty = false := by simpa using htrue
    have heq : branchRule comment whenTrue whenFalse name =
        { name, alternatives := [[.literal whenTrue], [.literal whenFalse]]
          action := some ⟨"equals", [⟨"value", .const whenTrue⟩]⟩, comment := some comment } := by
      simp [branchRule, hnotFalse, hnotTrue]
    rw [heq] at hrule
    exact reads_either_iff hrule htexts rfl fun _ _ => rfl

end Single

/-! ### Lists -/

/-- What names the first item of a list does not name the others. -/
theorem first_ne (field : String) : field ++ "First" ≠ field := by
  intro heq
  have hlength := congrArg String.length heq
  simp at hlength

section Items

variable {name firstStem stem comment : String}

/-- The rule of a list puts the first item in front of the others. -/
theorem apply_itemsRule (hstems : firstStem ≠ stem) (w : Value) (ws : List Value) :
    (itemsRule name firstStem stem comment).apply ctx [.rule firstStem, .rule stem .many]
      [w, .list ws] = .ok (.list (w :: ws)) := by
  have hfirst : Action.bind [.rule firstStem, .rule stem .many] [w, .list ws] (.ref firstStem) =
      .ok w := by
    simp [Action.bind, Symbol.refersTo, Symbol.rule, List.findIdx?_cons, Outcome.ofOption]
  have hrest : Action.bind [.rule firstStem, .rule stem .many] [w, .list ws] (.ref stem) =
      .ok (.list ws) := by
    simp [Action.bind, Symbol.refersTo, Symbol.rule, List.findIdx?_cons, hstems, Outcome.ofOption]
  have hargs : [(⟨"first", .ref firstStem⟩ : ActionParam), ⟨"rest", .ref stem⟩].mapM (fun q =>
      (Action.bind [.rule firstStem, .rule stem .many] [w, .list ws] q.source).map (q.key, ·)) =
      .ok [("first", w), ("rest", .list ws)] := by
    rw [Outcome.mapM_eq_ok_iff]
    exact .cons (by rw [hfirst]; rfl) (.cons (by rw [hrest]; rfl) .nil)
  refine Outcome.bind_eq_ok.mpr ⟨_, hargs, ?_⟩
  cases ws with
  | nil => rfl
  | cons w' ws => rfl

/-- **The value of a list** is made of its first item and the others. -/
theorem items_value (hstems : firstStem ≠ stem)
    (hrule : s.Holds (itemsRule name firstStem stem comment)) {cs : List Char} {e : Derivation}
    {v : Value} (h : Derives s (.rule name) cs e) (hv : e.evaluate s ctx = .ok v) :
    ∃ cs₁ cs₂ n d ds w ws, cs = cs₁ ++ cs₂ ∧ Derives s (.rule firstStem) cs₁ d ∧
      d.within ⊆ e.inside ∧ d.evaluate s ctx = .ok w ∧
      DerivesAll s (List.replicate n (.rule stem)) cs₂ ds ∧ Derivation.withinAll ds ⊆ e.inside ∧
      Derivation.evaluateAll s ctx ds = .ok ws ∧ v = .list (w :: ws) := by
  obtain ⟨q, alternative, ds, vs, rfl, hq, hds, hvs, happly⟩ := Derivation.node_of_derives h hv hrule
  obtain rfl := List.mem_singleton.mp (List.mem_of_getElem? hq)
  obtain ⟨cs₁, cs₂, d, ds, rfl, rfl, hd, hrest⟩ := derivesAll_cons_iff.mp hds
  obtain ⟨e, rfl, he⟩ := derivesAll_singleton_iff.mp hrest
  obtain ⟨n, ds, hitems, rfl⟩ := (derives_many_iff rfl).mp he
  obtain ⟨w, vs, hw, hlist, rfl⟩ := Derivation.evaluateAll_cons_eq_ok.mp hvs
  obtain ⟨_, hmany, rfl⟩ := Derivation.evaluateAll_singleton_eq_ok.mp hlist
  obtain ⟨ws, hws, rfl⟩ := Derivation.evaluate_many_eq_ok.mp hmany
  refine ⟨cs₁, cs₂, n, d, ds, w, ws, rfl, hd, Derivation.within_subset_withinAll (by simp), hw,
    hitems, fun x hx => ?_, hws, ?_⟩
  · refine Derivation.within_subset_withinAll (d := .many ds) (by simp) ?_
    rw [Derivation.within]
    exact List.mem_cons_of_mem _ hx
  · rw [apply_itemsRule hstems] at happly
    exact (Except.ok.inj happly).symm

/-- **The items of a list** have been read one by one, the first of them by a rule of its own. -/
theorem items_read (hstems : firstStem ≠ stem)
    (hrule : s.Holds (itemsRule name firstStem stem comment)) {cs : List Char} {e : Derivation}
    {v : Value} (h : Derives s (.rule name) cs e) (hv : e.evaluate s ctx = .ok v) :
    ∃ w ws, v = .list (w :: ws) ∧ (∃ cs d, Derives s (.rule firstStem) cs d ∧
      d.within ⊆ e.inside ∧ d.evaluate s ctx = .ok w) ∧ ∀ w' ∈ ws, ∃ cs d,
        Derives s (.rule stem) cs d ∧ d.within ⊆ e.inside ∧ d.evaluate s ctx = .ok w' := by
  obtain ⟨cs₁, _, _, d, ds, w, ws, -, hd, hin, hw, hds, hins, hws, rfl⟩ :=
    items_value hstems hrule h hv
  refine ⟨w, ws, rfl, ⟨cs₁, d, hd, hin, hw⟩, fun w' hw' => ?_⟩
  obtain ⟨cs, d', hmem, hd', hvalue⟩ := exists_of_derivesAll_replicate hds hws hw'
  exact ⟨cs, d', hd', List.Subset.trans (Derivation.within_subset_withinAll hmem) hins, hvalue⟩

/-- **A list reads** its first item and then the others. -/
theorem reads_items (hstems : firstStem ≠ stem)
    (hrule : s.Holds (itemsRule name firstStem stem comment)) {cs : List Char} {w : Value}
    (hfirst : Reads s ctx (.rule firstStem) cs w) {css : List (List Char)} {ws : List Value}
    (hrest : List.Forall₂ (Reads s ctx (.rule stem)) css ws) :
    Reads s ctx (.rule name) (cs ++ css.flatten) (.list (w :: ws)) :=
  reads_rule hrule (q := 0) rfl
    (readsAll_cons hfirst (readsAll_singleton (reads_many rfl hrest)))
    (apply_itemsRule hstems w ws)

end Items

end Covenant.Markup
