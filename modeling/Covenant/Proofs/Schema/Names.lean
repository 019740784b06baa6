import Covenant.Proofs.Schema.Resolved
import Covenant.Proofs.Text.Basic
import Covenant.Schema.JsonSchema

/-!
Names of types and properties.

* `char_of_isName`: what names are made of, so that none has a point in it.
* `qualified_inj`: a fully-qualified name tells the namespace from the name.
* `Catalog.Built.named`: the files of every catalog that can be built declare names.
* `Catalog.Built.declared`: they also declare every type of the catalog, with its
  properties.
* `Catalog.Built.super_monetary`, `Catalog.Built.monetary_spec`: amounts of money have no
  supertype, a number and a currency.
-/

namespace Covenant

theorem mem_withoutLineFeed {cs : List Char} {c : Char} (hc : c ∈ cs) :
    c ∈ Text.withoutLineFeed cs ∨ c = '\n' := by
  rcases Text.withoutLineFeed_cases cs with hself | hfeed
  · exact .inl (hself.symm ▸ hc)
  · rw [hfeed, List.mem_append, List.mem_singleton] at hc
    exact hc

theorem char_of_isIdentifier {cs : List Char} (h : isIdentifier cs = true) {c : Char}
    (hc : c ∈ cs) : c.isAlphanum = true ∨ c = '_' := by
  cases cs with
  | nil => cases hc
  | cons d ds =>
    simp only [isIdentifier, Bool.and_eq_true, Bool.or_eq_true, beq_iff_eq, List.all_eq_true] at h
    rcases List.mem_cons.mp hc with rfl | hc
    · exact h.1.imp_left fun halpha => by simp [Char.isAlphanum, halpha]
    · exact h.2 c hc

/-- **A name** is made of letters, digits and underscores; a line feed may follow. -/
theorem char_of_isName {s : String} (h : isName s = true) {c : Char} (hc : c ∈ s.toList) :
    c.isAlphanum = true ∨ c = '_' ∨ c = '\n' := by
  rcases mem_withoutLineFeed hc with hc | hc
  · exact (char_of_isIdentifier h hc).imp_right .inl
  · exact .inr (.inr hc)

/-- A dotted name is made of the same, and of points. -/
theorem char_of_isDottedName {s : String} (h : isDottedName s = true) {c : Char}
    (hc : c ∈ s.toList) : c = '.' ∨ c.isAlphanum = true ∨ c = '_' ∨ c = '\n' := by
  rcases mem_withoutLineFeed hc with hc | hc
  · rcases Text.mem_splitAt '.' hc with hc | ⟨piece, hpiece, hc⟩
    · exact .inl hc
    · exact .inr ((char_of_isIdentifier (List.all_eq_true.mp h piece hpiece) hc).imp_right .inl)
  · exact .inr (.inr (.inr hc))

theorem not_dotted_of_isName {s : String} (h : isName s = true) : '.' ∉ s.toList := by
  intro hc
  rcases char_of_isName h hc with hc | hc | hc <;> exact absurd hc (by decide)

theorem ne_classKey_of_isName {s : String} (h : isName s = true) : s ≠ classKey := by
  rintro rfl
  have hc : '$' ∈ classKey.toList := by decide
  rcases char_of_isName h hc with hc | hc | hc <;> exact absurd hc (by decide)

/-- **A fully-qualified name tells the namespace from the name**, which has no points. -/
theorem qualified_inj {ns ns' name name' : String} (hname : '.' ∉ name.toList)
    (hname' : '.' ∉ name'.toList) (h : ns ++ "." ++ name = ns' ++ "." ++ name') :
    ns = ns' ∧ name = name' := by
  have hlists := congrArg String.toList h
  simp only [String.toList_append, List.append_assoc] at hlists
  rw [← String.toList_inj, ← String.toList_inj]
  rcases List.append_eq_append_iff.mp hlists with ⟨cs, hns, hcs⟩ | ⟨cs, hns, hcs⟩
  all_goals
    cases cs with
    | nil => simpa [hns, eq_comm] using hcs
    | cons c cs =>
      -- a longer namespace would leave a point in the name
      have hmem := congrArg List.tail hcs
      simp only [String.reduceToList, List.cons_append, List.nil_append, List.tail_cons] at hmem
      first
        | exact absurd (by rw [hmem]; simp) hname
        | exact absurd (by rw [hmem]; simp) hname'

theorem qualified_dotted (ns name : String) : '.' ∈ (ns ++ "." ++ name).toList := by
  simp

/-! ### Names in model files -/

/-- A model file whose namespace, types and properties have names. -/
structure ModelFile.Named (m : ModelFile) : Prop where
  ns : isDottedName m.ns = true
  types : ∀ d ∈ m.declarations, isName d.name = true
  properties : ∀ d ∈ m.declarations, ∀ p ∈ d.properties,
    isName p.name = true ∧ isDottedName p.type = true

theorem ok_of_nameReading {what : String} {ok : String → Bool} {v : Value} {s : String}
    (h : nameReading what ok v = .ok s) : ok s = true := by
  by_contra hfalse
  simpa [hfalse] using (Shape.refuse_eq_ok.mp h).2

theorem PropertyDeclaration.named_of_read {v : Value} {p : PropertyDeclaration}
    (h : read v = .ok p) : isName p.name = true ∧ isDottedName p.type = true := by
  obtain ⟨fs, _, h⟩ := Outcome.bind_eq_ok.mp h
  obtain ⟨_, h6, _, _, rfl⟩ := Shape.join_eq_ok.mp h
  obtain ⟨_, h5, _, _, rfl⟩ := Shape.join_eq_ok.mp h6
  obtain ⟨_, h4, _, _, rfl⟩ := Shape.join_eq_ok.mp h5
  obtain ⟨_, h3, _, _, rfl⟩ := Shape.join_eq_ok.mp h4
  obtain ⟨_, h2, type, htype, rfl⟩ := Shape.join_eq_ok.mp h3
  obtain ⟨_, h1, name, hname, rfl⟩ := Shape.join_eq_ok.mp h2
  cases h1
  obtain ⟨_, _, htype⟩ := Shape.field_eq_ok htype
  obtain ⟨_, _, hname⟩ := Shape.field_eq_ok hname
  exact ⟨ok_of_nameReading hname, ok_of_nameReading htype⟩

theorem TypeDeclaration.named_of_read {v : Value} {d : TypeDeclaration} (h : read v = .ok d) :
    isName d.name = true ∧
      ∀ p ∈ d.properties, isName p.name = true ∧ isDottedName p.type = true := by
  obtain ⟨fs, _, h⟩ := Outcome.bind_eq_ok.mp (Shape.refuse_eq_ok.mp h).1
  obtain ⟨_, h6, _, _, rfl⟩ := Shape.join_eq_ok.mp h
  obtain ⟨_, h5, properties, hproperties, rfl⟩ := Shape.join_eq_ok.mp h6
  obtain ⟨_, h4, _, _, rfl⟩ := Shape.join_eq_ok.mp h5
  obtain ⟨_, h3, _, _, rfl⟩ := Shape.join_eq_ok.mp h4
  obtain ⟨_, h2, name, hname, rfl⟩ := Shape.join_eq_ok.mp h3
  obtain ⟨_, h1, _, _, rfl⟩ := Shape.join_eq_ok.mp h2
  cases h1
  obtain ⟨_, _, hname⟩ := Shape.field_eq_ok hname
  refine ⟨ok_of_nameReading (Shape.refuse_eq_ok.mp hname).1, fun p hp => ?_⟩
  rcases Shape.fieldOr_eq_ok hproperties with hdefault | ⟨w, hw⟩
  · have hnil : properties = [] := hdefault
    rw [hnil] at hp
    cases hp
  · obtain ⟨x, hx⟩ := Shape.mem_items hw hp
    exact PropertyDeclaration.named_of_read hx

theorem ModelFile.named_of_read {v : Value} {m : ModelFile} (h : read v = .ok m) : m.Named := by
  obtain ⟨fs, _, h⟩ := Outcome.bind_eq_ok.mp h
  obtain ⟨_, h3, declarations, hdeclarations, rfl⟩ := Shape.join_eq_ok.mp h
  obtain ⟨_, h2, _, _, rfl⟩ := Shape.join_eq_ok.mp h3
  obtain ⟨_, h1, ns, hns, rfl⟩ := Shape.join_eq_ok.mp h2
  cases h1
  obtain ⟨_, _, hns⟩ := Shape.field_eq_ok hns
  have hread : ∀ d ∈ declarations, ∃ x, TypeDeclaration.read x = .ok d := by
    intro d hd
    rcases Shape.fieldOr_eq_ok hdeclarations with hdefault | ⟨w, hw⟩
    · have hnil : declarations = [] := hdefault
      rw [hnil] at hd
      cases hd
    · exact Shape.mem_items hw hd
  refine ⟨ok_of_nameReading hns, fun d hd => ?_, fun d hd => ?_⟩
  · obtain ⟨x, hx⟩ := hread d hd
    exact (TypeDeclaration.named_of_read hx).1
  · obtain ⟨x, hx⟩ := hread d hd
    exact (TypeDeclaration.named_of_read hx).2

theorem SystemModel.named : ∀ m ∈ SystemModel.files, m.Named := by
  intro m hm
  simp only [files, List.mem_cons, List.not_mem_nil, or_false] at hm
  rcases hm with rfl | rfl | rfl <;> constructor <;> decide_cbv

namespace Catalog

/-- What adding a value leaves behind is what adding the model file leaves behind. -/
theorem snd_add (c : Catalog) (v : Value) (file : Option String) :
    (c.add v file).2 = match readModel v file with
      | .ok m => (c.insert m file).2
      | .error _ => c := by
  unfold add
  cases readModel v file with
  | error f => rfl
  | ok m =>
    simp only
    rcases c.insert m file with ⟨_ | _, c'⟩ <;> rfl

/-- The files that adding a value leaves: those that were there, and perhaps the one that
was read, whose namespace is new. -/
theorem files_add (c : Catalog) (v : Value) (file : Option String) :
    (c.add v file).2.files = c.files ∨ ∃ m w, ModelFile.read w = .ok m ∧
      m.ns ∉ c.files.map (fun f => f.model.ns) ∧
      (c.add v file).2.files = c.files ++ [⟨m, file⟩] := by
  have hinsert : ∀ m, (c.insert m file).2.files = c.files ∨
      m.ns ∉ c.files.map (fun f => f.model.ns) ∧
        (c.insert m file).2.files = c.files ++ [⟨m, file⟩] := by
    intro m
    unfold insert
    split
    · exact .inl rfl
    · rename_i hnew
      have hnew' : m.ns ∉ c.files.map (fun f => f.model.ns) := by simpa [hasFile] using hnew
      simp only
      split
      · rename_i c' hc'
        obtain ⟨_, _, rfl⟩ := Outcome.map_eq_ok.mp hc'
        exact .inr ⟨hnew', rfl⟩
      · split
        · split
          · rename_i c' hc'
            obtain ⟨_, _, rfl⟩ := Outcome.map_eq_ok.mp hc'
            exact .inl rfl
          · exact .inl rfl
        · exact .inr ⟨hnew', rfl⟩
  rw [snd_add]
  split
  · rename_i m hm
    obtain ⟨w, hw⟩ := read_of_readModel hm
    exact (hinsert m).imp_right fun h => ⟨m, w, hw, h⟩
  · exact .inl rfl

/-- A property of a primitive type as it is declared. -/
def plainProperty (p : PropertyDeclaration) : Property :=
  ⟨p.name, p.type, p.type, p.array, p.optional, p.identifier, p.relationship⟩

/-- A type as files declare it, with properties that they declare. A type that extends nothing
and whose properties are of primitive types has these properties. -/
structure Declares (files : List SourceFile) (d : SchemaType) : Prop where
  type : ∃ f ∈ files, ∃ t ∈ f.model.declarations,
    d.fqn = f.model.ns ++ "." ++ t.name ∧ d.name = t.name ∧ d.kind = t.kind ∧
      (t.extends? = none → d.super? = none)
  properties : ∀ p ∈ d.properties, ∃ f ∈ files, ∃ t ∈ f.model.declarations,
    ∃ q ∈ t.properties, q.name = p.name
  root : ∃ f ∈ files, ∃ t ∈ f.model.declarations, d.fqn = f.model.ns ++ "." ++ t.name ∧
    (t.extends? = none → (∀ p ∈ t.properties, Primitive.isName p.type = true) →
      d.super? = none ∧ d.abstract = t.abstract ∧ d.kind = t.kind ∧
        d.properties = t.properties.map plainProperty)

theorem Declares.mono {files files' : List SourceFile} {d : SchemaType} (h : Declares files d)
    (hsub : files ⊆ files') : Declares files' d := by
  refine ⟨?_, fun p hp => ?_, ?_⟩
  · obtain ⟨f, hf, h⟩ := h.type
    exact ⟨f, hsub hf, h⟩
  · obtain ⟨f, hf, h⟩ := h.properties p hp
    exact ⟨f, hsub hf, h⟩
  · obtain ⟨f, hf, h⟩ := h.root
    exact ⟨f, hsub hf, h⟩

/-- The properties of primitive types are resolved as they are declared. -/
theorem mapM_property_eq {all : Table Declared} {source : SourceFile} {fqn : String}
    {ps : List PropertyDeclaration} (h : ∀ p ∈ ps, Primitive.isName p.type = true) :
    ps.mapM (Resolve.property all source fqn) = .ok (ps.map plainProperty) := by
  refine Outcome.mapM_eq_ok_map fun p hp => ?_
  have hname : Resolve.name? all source p.type = some p.type := by
    rw [Resolve.name?, if_pos (h p hp)]
  rw [Resolve.property, Resolve.name, hname]
  rfl

/-- A type that extends nothing inherits nothing. -/
theorem inherit_root {own : Table SchemaType} {d t : SchemaType} (hd : own.find? d.fqn = some d)
    (hsuper : d.super? = none) (h : Resolve.inherit own d = .ok t) : t = d := by
  obtain ⟨ancestors, hchain, h⟩ := Outcome.bind_eq_ok.mp h
  rw [Resolve.chain, hd] at hchain
  simp only [hsuper] at hchain
  rw [Resolve.chainFrom] at hchain
  cases hchain
  cases h
  simp [hd]

/-- What a declaration makes on its own is declared. -/
theorem declares_of_ownType {files : List SourceFile} {e : String × Declared} {t : SchemaType}
    (he : e ∈ Resolve.declared files)
    (h : Resolve.ownType (Resolve.declared files) e.1 e.2 = .ok t) : Declares files t := by
  obtain ⟨hsource, hdeclaration⟩ := Resolve.mem_declared he
  obtain ⟨super?, hsuper, h⟩ := Outcome.bind_eq_ok.mp h
  obtain ⟨properties, hproperties, h⟩ := Outcome.bind_eq_ok.mp h
  cases h
  have hroot : e.2.declaration.extends? = none → super? = none := by
    intro hnone
    rw [Resolve.super, hnone] at hsuper
    cases hsuper
    rfl
  refine ⟨⟨e.2.source, hsource, e.2.declaration, hdeclaration, Resolve.key_declared he, rfl, rfl,
      hroot⟩,
    fun p hp => ⟨e.2.source, hsource, e.2.declaration, hdeclaration, ?_⟩,
    ⟨e.2.source, hsource, e.2.declaration, hdeclaration, Resolve.key_declared he,
      fun hnone hplain => ⟨hroot hnone, rfl, rfl, ?_⟩⟩⟩
  · obtain ⟨q, hq, hqp⟩ := Outcome.exists_of_mem_mapM hproperties hp
    obtain ⟨_, _, hqp⟩ := Outcome.bind_eq_ok.mp hqp
    cases hqp
    exact ⟨q, hq, rfl⟩
  · rw [mapM_property_eq hplain, Except.ok.injEq] at hproperties
    exact hproperties.symm

/-- **Every type that files resolve to is declared in them.** -/
theorem declares_of_resolve {files : List SourceFile} {types : Table SchemaType}
    (h : resolve files = .ok types) : ∀ e ∈ types, Declares files e.2 := by
  obtain ⟨own, hown, htypes, _⟩ := resolve_eq_ok_iff.mp h
  have hdeclared : ∀ e ∈ own, Declares files e.2 := by
    intro e he
    obtain ⟨d, hd, ht, -⟩ := exists_of_mapM hown he
    exact declares_of_ownType hd ht
  rintro ⟨_, t⟩ he
  obtain ⟨d, hd, (ht : Resolve.inherit own d.2 = .ok t), -⟩ := exists_of_mapM htypes he
  obtain ⟨ancestors, _, ht'⟩ := Outcome.bind_eq_ok.mp ht
  refine ⟨?_, fun p hp => ?_, ?_⟩
  · cases ht'
    exact (hdeclared d hd).type
  · obtain ⟨b, hb, hp⟩ := (Resolve.inherit_spec ht).2.2.2.2.2 p hp
    exact (hdeclared b hb).properties p hp
  · obtain ⟨f, hf, b, hb, hfqn, hroot⟩ := (hdeclared d hd).root
    refine ⟨f, hf, b, hb, (Resolve.inherit_spec ht).1.trans hfqn, fun hnone hplain => ?_⟩
    obtain ⟨hsuper, hrest⟩ := hroot hnone hplain
    have hkey : d.1 = d.2.fqn := by
      obtain ⟨b, _, hown', hname⟩ := exists_of_mapM hown hd
      exact hname.trans (Resolve.ownType_spec hown').1.symm
    have hnodup : (Table.names own).Nodup := names_mapM hown ▸ Resolve.nodup_declared files
    have hfind : Table.find? own d.2.fqn = some d.2 :=
      (Table.find_eq_some_iff hnodup).mpr (hkey ▸ hd)
    rw [inherit_root hfind hsuper ht]
    exact ⟨hsuper, hrest⟩

/-- What holds of every file that was read holds of the files that adding a value
leaves, and what it does to the types. -/
theorem declares_add {c : Catalog} (hc : ∀ e ∈ c.types, Declares c.files e.2) (v : Value)
    (file : Option String) : ∀ e ∈ (c.add v file).2.types, Declares (c.add v file).2.files e.2 := by
  have hrefresh : ∀ {b b' : Catalog}, b.refresh = .ok b' → ∀ e ∈ b'.types, Declares b'.files e.2 := by
    intro b b' h
    obtain ⟨types, htypes, rfl⟩ := Outcome.map_eq_ok.mp h
    exact declares_of_resolve htypes
  have hinsert : ∀ m, ∀ e ∈ (c.insert m file).2.types, Declares (c.insert m file).2.files e.2 := by
    intro m
    unfold insert
    split
    · exact hc
    · simp only
      split
      · rename_i c' h
        exact hrefresh h
      · split
        · split
          · rename_i c' h
            exact hrefresh h
          · exact hc
        · exact fun e he => (hc e he).mono fun f hf => by simp [hf]
  rw [snd_add]
  split
  · exact hinsert _
  · exact hc

/-- **The types of every catalog that can be built are declared in its files.** -/
theorem Built.declared {c : Catalog} (h : c.Built) : ∀ e ∈ c.types, Declares c.files e.2 := by
  induction h with
  | system =>
    unfold Catalog.system
    simp only
    split
    · rename_i c h
      obtain ⟨types, htypes, rfl⟩ := Outcome.map_eq_ok.mp h
      exact declares_of_resolve htypes
    · simp
  | add _ v file ih => exact declares_add ih v file

/-- What adding a value leaves declares names if the files did before. -/
theorem named_add {c : Catalog} (hc : ∀ f ∈ c.files, f.model.Named) (v : Value)
    (file : Option String) : ∀ f ∈ (c.add v file).2.files, f.model.Named := by
  rcases files_add c v file with h | ⟨m, w, hw, _, h⟩
  · exact h ▸ hc
  · rw [h]
    intro f hf
    rcases List.mem_append.mp hf with hf | hf
    · exact hc f hf
    · rw [List.mem_singleton.mp hf]
      exact ModelFile.named_of_read hw

/-- **The files of every catalog that can be built declare names.** -/
theorem Built.named {c : Catalog} (h : c.Built) : ∀ f ∈ c.files, f.model.Named := by
  induction h with
  | system =>
    intro f hf
    rw [files_system] at hf
    obtain ⟨m, hm, rfl⟩ := List.mem_map.mp hf
    exact SystemModel.named m hm
  | add _ v file ih => exact named_add ih v file

/-- **The files of every catalog that can be built** have different namespaces, and are the
system files and others. -/
theorem Built.files_spec {c : Catalog} (h : c.Built) :
    (c.files.map fun f => f.model.ns).Nodup ∧ Catalog.system.files ⊆ c.files := by
  induction h with
  | system =>
    refine ⟨?_, fun f hf => hf⟩
    rw [files_system]
    decide_cbv
  | @add c _ v file ih =>
    rcases files_add c v file with h | ⟨m, w, _, hnew, h⟩
    · exact h ▸ ih
    · rw [h, List.map_append]
      refine ⟨List.nodup_append.mpr ⟨ih.1, by simp, fun ns hns ns' hns' heq => ?_⟩,
        fun f hf => List.mem_append_left _ (ih.2 hf)⟩
      obtain rfl : ns' = m.ns := by simpa using hns'
      exact hnew (heq ▸ hns)

/-- **What declares amounts of money** in any catalog that can be built is the system file,
which declares no other type. -/
theorem Built.money_declared {c : Catalog} (h : c.Built) {f : SourceFile} (hf : f ∈ c.files)
    {t : TypeDeclaration} (ht : t ∈ f.model.declarations)
    (hname : f.model.ns ++ "." ++ t.name = Monetary.typeName) :
    t.extends? = none ∧ t.kind = .concept ∧ t.abstract = false ∧ t.properties =
      [{ name := "doubleValue", type := "Double" }, { name := "currencyCode", type := "String" }] := by
  have hmoney : Monetary.typeName = "org.clausegram.money" ++ "." ++ "MonetaryAmount" := by decide
  obtain ⟨hns, hshort⟩ := qualified_inj (not_dotted_of_isName ((h.named f hf).types t ht))
    (by decide) (hname.trans hmoney)
  have hfile : (⟨SystemModel.files[1], none⟩ : SourceFile) ∈ c.files := by
    refine h.files_spec.2 ?_
    rw [files_system]
    exact List.mem_map.mpr ⟨_, List.getElem_mem _, rfl⟩
  obtain rfl : f = ⟨SystemModel.files[1], none⟩ :=
    List.inj_on_of_nodup_map h.files_spec.1 hf hfile hns
  obtain rfl := List.mem_singleton.mp ht
  exact ⟨rfl, rfl, rfl, rfl⟩

/-- **Amounts of money have no supertype** in any catalog that can be built. -/
theorem Built.super_monetary {c : Catalog} (h : c.Built) {e : String × SchemaType}
    (he : e ∈ c.types) (hname : e.2.fqn = Monetary.typeName) : e.2.super? = none := by
  obtain ⟨f, hf, t, ht, hfqn, _, _, hsuper⟩ := (h.declared e he).type
  exact hsuper (h.money_declared hf ht (hfqn.symm.trans hname)).1

def moneyProperties : List Property :=
  [{ name := "doubleValue", typeName := "Double", type := "Double" },
    { name := "currencyCode", typeName := "String", type := "String" }]

/-- **Amounts of money have a number and a currency** in any catalog that can be built. -/
theorem Built.monetary_spec {c : Catalog} (h : c.Built) {d : SchemaType}
    (hd : c.types.find? Monetary.typeName = some d) :
    d.fqn = Monetary.typeName ∧ d.isEnum = false ∧ d.abstract = false ∧
      d.properties = moneyProperties := by
  have hmem := Table.mem_of_find hd
  have hname : d.fqn = Monetary.typeName := h.sound.types.fqn _ hmem
  obtain ⟨f, hf, t, ht, hfqn, hroot⟩ := (h.declared _ hmem).root
  obtain ⟨hextends, hkind, habstract, hproperties⟩ :=
    h.money_declared hf ht (hfqn.symm.trans hname)
  obtain ⟨_, habstract', hkind', hproperties'⟩ := hroot hextends (by rw [hproperties]; decide)
  refine ⟨hname, ?_, habstract'.trans habstract, ?_⟩
  · rw [SchemaType.isEnum, hkind', hkind]
    rfl
  · rw [hproperties', hproperties]
    rfl

end Catalog

end Covenant
