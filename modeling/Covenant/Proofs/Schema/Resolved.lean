import Covenant.Proofs.Value.Shape
import Covenant.Proofs.Table
import Covenant.Schema.Catalog

/-!
What holds of the types of every catalog.

* `Resolved`: types stand under their own names, once each; the types of their
  properties are declared; their chains of supertypes end; enumerations have values.
* `resolve_resolved`: resolving files whose enumerations have values gives such types.
* `Catalog.Built.sound`: so the types of every catalog that can be built are
  resolved, whatever was added to it and whatever was refused.
-/

namespace Covenant

/-- Types whose references all lead somewhere. -/
structure Resolved (types : Table SchemaType) : Prop where
  names : types.names.Nodup
  fqn : ∀ e ∈ types, e.2.fqn = e.1
  targets : ∀ e ∈ types, ∀ p ∈ e.2.properties, p.isPrimitive = false → p.type ∈ types.names
  chains : ∀ e ∈ types, ∃ chain, Resolve.chain types e.1 = .ok chain
  values : ∀ e ∈ types, e.2.isEnum = true → e.2.values ≠ []
  properties : ∀ e ∈ types, (e.2.properties.map Property.name).Nodup

def ModelFile.Valued (m : ModelFile) : Prop :=
  ∀ d ∈ m.declarations, d.kind = .enumeration → d.values ≠ []

namespace Resolve

/-! ### Declarations -/

theorem nodup_declared (files : List SourceFile) : (declared files).names.Nodup :=
  Table.nodup_names_foldl_put (by simp)

/-- A declared type stands in one of the files. -/
theorem mem_declared {files : List SourceFile} {e : String × Declared}
    (h : e ∈ declared files) : e.2.source ∈ files ∧ e.2.declaration ∈ e.2.source.model.declarations := by
  rcases Table.mem_foldl_put h with h | h
  · cases h
  · obtain ⟨f, hf, h⟩ := List.mem_flatMap.mp h
    obtain ⟨d, hd, rfl⟩ := List.mem_map.mp h
    exact ⟨hf, hd⟩

/-- A declared type is kept under the name of its file's namespace and its own. -/
theorem key_declared {files : List SourceFile} {e : String × Declared}
    (h : e ∈ declared files) : e.1 = e.2.source.model.ns ++ "." ++ e.2.declaration.name := by
  rcases Table.mem_foldl_put h with h | h
  · cases h
  · obtain ⟨f, _, h⟩ := List.mem_flatMap.mp h
    obtain ⟨d, _, rfl⟩ := List.mem_map.mp h
    rfl

/-- An import only leads to types that are declared. -/
theorem imported_declared {all : Table Declared} {name imported fqn : String}
    (h : imported? all name imported = some fqn) : fqn ∈ all.names := by
  unfold imported? at h
  split at h
  · rename_i hhas
    cases h
    exact Table.has_iff.mp (Bool.and_eq_true _ _ ▸ hhas).2
  · split at h
    · simp only at h
      split at h
      · rename_i hhas
        cases h
        exact Table.has_iff.mp hhas
      · cases h
    · cases h

/-- The system namespace only leads to types that are declared. -/
theorem system_declared {all : Table Declared} {name fqn : String}
    (h : system? all name = some fqn) : fqn ∈ all.names := by
  unfold system? at h
  split at h
  · rename_i e hfilter
    cases h
    have hmem : e ∈ all := List.mem_of_mem_filter (by rw [hfilter]; simp)
    exact List.mem_map.mpr ⟨e, hmem, rfl⟩
  · cases h

/-- A name that is no primitive's resolves to a declared type, or not at all. -/
theorem declared_of_name {all : Table Declared} {source : SourceFile} {n fqn : String}
    (hn : Primitive.isName n = false) (h : name? all source n = some fqn) : fqn ∈ all.names := by
  rw [name?, if_neg (by simp [hn])] at h
  split at h
  · split at h
    · rename_i hhas
      cases h
      exact Table.has_iff.mp hhas
    · cases h
  · simp only at h
    split at h
    · rename_i hhas
      cases h
      exact Table.has_iff.mp hhas
    · rcases Option.or_eq_some_iff.mp h with h | ⟨_, h⟩
      · obtain ⟨i, _, hi⟩ := List.exists_of_findSome?_eq_some h
        exact imported_declared hi
      · exact system_declared h

/-- **A name refers to a primitive type or to a declared one.** -/
theorem name_declared {all : Table Declared} {source : SourceFile} {n fqn : String}
    (h : name? all source n = some fqn) : Primitive.isName fqn = true ∨ fqn ∈ all.names := by
  cases hn : Primitive.isName n with
  | true =>
    rw [name?, if_pos hn] at h
    cases h
    exact .inl hn
  | false => exact .inr (declared_of_name hn h)

/-- A resolved property has a primitive type or a declared one. -/
theorem property_declared {all : Table Declared} {source : SourceFile} {fqn : String}
    {d : PropertyDeclaration} {p : Property} (h : property all source fqn d = .ok p) :
    p.isPrimitive = true ∨ p.type ∈ all.names := by
  obtain ⟨type, htype, heq⟩ := Outcome.bind_eq_ok.mp h
  cases heq
  unfold name at htype
  split at htype
  · rename_i hname
    cases htype
    exact name_declared hname
  · cases htype

/-! ### Own and inherited properties -/

/-- The types of a table agree on names and supertypes. -/
def SameSupers (t u : Table SchemaType) : Prop :=
  List.Forall₂ (fun e e' => e.1 = e'.1 ∧ e.2.super? = e'.2.super?) t u

theorem SameSupers.names {t u : Table SchemaType} (h : SameSupers t u) : t.names = u.names := by
  induction h with
  | nil => rfl
  | cons he _ ih =>
    simp only [Table.names, List.map_cons] at *
    rw [he.1, ih]

theorem SameSupers.find {t u : Table SchemaType} (h : SameSupers t u) (key : String) :
    (t.find? key).map SchemaType.super? = (u.find? key).map SchemaType.super? := by
  induction h with
  | nil => rfl
  | @cons e e' t u he _ ih =>
    obtain ⟨k, d⟩ := e
    obtain ⟨k', d'⟩ := e'
    obtain ⟨rfl, hsuper⟩ := he
    by_cases hk : key = k
    · simpa [Table.find?, List.lookup, hk] using hsuper
    · have hne : (key == k) = false := beq_false_of_ne hk
      simpa only [Table.find?, List.lookup, hne] using ih

/-- The chain of super types is found from the super types alone. -/
theorem SameSupers.chainFrom {t u : Table SchemaType} (h : SameSupers t u) (fqn : String)
    (fuel : Nat) (chain : List String) (current : Option String) :
    Resolve.chainFrom t fqn fuel chain current = Resolve.chainFrom u fqn fuel chain current := by
  induction fuel generalizing chain current with
  | zero => cases current <;> rfl
  | succ fuel ih =>
    cases current with
    | none => rfl
    | some current =>
      have hfind := h.find current
      simp only [Resolve.chainFrom]
      split
      · rfl
      · cases ht : t.find? current <;> cases hu : u.find? current <;> simp_all

/-- **A chain depends on names and supertypes only.** -/
theorem SameSupers.chain {t u : Table SchemaType} (h : SameSupers t u) (fqn : String) :
    Resolve.chain t fqn = Resolve.chain u fqn := by
  have hfind := h.find fqn
  unfold Resolve.chain
  rw [h.length_eq]
  cases ht : t.find? fqn <;> cases hu : u.find? fqn <;> simp_all [h.chainFrom]

/-- What `ownType` gives, in terms of the declaration. -/
theorem ownType_spec {all : Table Declared} {fqn : String} {d : Declared} {t : SchemaType}
    (h : ownType all fqn d = .ok t) :
    t.fqn = fqn ∧ t.kind = d.declaration.kind ∧ t.values = d.declaration.values ∧
      ∀ p ∈ t.properties, p.isPrimitive = true ∨ p.type ∈ all.names := by
  obtain ⟨super?, _, h⟩ := Outcome.bind_eq_ok.mp h
  obtain ⟨properties, hproperties, h⟩ := Outcome.bind_eq_ok.mp h
  cases h
  refine ⟨rfl, rfl, rfl, fun p hp => ?_⟩
  obtain ⟨_, _, hproperty⟩ := Outcome.exists_of_mem_mapM hproperties hp
  exact property_declared hproperty

/-- What `inherit` gives: the same type with properties of types of the table. -/
theorem inherit_spec {own : Table SchemaType} {d t : SchemaType} (h : inherit own d = .ok t) :
    t.fqn = d.fqn ∧ t.kind = d.kind ∧ t.values = d.values ∧ t.super? = d.super? ∧
      (∃ ancestors, chain own d.fqn = .ok ancestors) ∧
      ∀ p ∈ t.properties, ∃ e ∈ own, p ∈ e.2.properties := by
  obtain ⟨ancestors, hchain, h⟩ := Outcome.bind_eq_ok.mp h
  cases h
  refine ⟨rfl, rfl, rfl, rfl, ⟨ancestors, hchain⟩, fun p hp => ?_⟩
  obtain ⟨a, _, ha⟩ := List.mem_flatMap.mp hp
  cases hfind : own.find? a with
  | none => simp [hfind] at ha
  | some e => exact ⟨(a, e), Table.mem_of_find hfind, by simpa [hfind] using ha⟩

/-! ### Checks -/

theorem duplicates_eq_nil_iff {xs : List String} : duplicates xs = [] ↔ xs.Nodup := by
  rw [List.nodup_iff_count_le_one]
  constructor
  · intro h x
    by_contra hcount
    have hmem : x ∈ duplicates xs := by
      rw [duplicates, List.mem_eraseDups, List.mem_mergeSort, List.mem_filter]
      exact ⟨List.count_pos_iff.mp (by omega), by simpa using hcount⟩
    rw [h] at hmem
    cases hmem
  · intro h
    have hfilter : xs.filter (fun x => 1 < xs.count x) = [] := by
      rw [List.filter_eq_nil_iff]
      intro x _
      simpa using h x
    simp [duplicates, hfilter]

/-- A type's properties are in order exactly if no name is used twice and at most one of them
identifies. -/
theorem propertyFault_eq_none_iff {d : SchemaType} :
    propertyFault? d = none ↔ (d.properties.map Property.name).Nodup ∧
      (d.properties.filter fun p => p.identifier).length ≤ 1 := by
  rw [← duplicates_eq_nil_iff]
  unfold propertyFault?
  by_cases hempty : duplicates (d.properties.map Property.name) = []
  · simp [hempty]
  · simp [hempty]

theorem forM_eq_ok_iff {α : Type} {f : α → Outcome Unit} {as : List α} :
    as.forM f = .ok () ↔ ∀ a ∈ as, f a = .ok () := by
  induction as with
  | nil => exact ⟨fun _ => by simp, fun _ => rfl⟩
  | cons a as ih =>
    rw [List.forM_eq_forM, List.forM_cons, Outcome.bind_eq_ok, List.forall_mem_cons, ← ih]
    exact ⟨fun ⟨_, ha, hrest⟩ => ⟨ha, hrest⟩, fun ⟨ha, hrest⟩ => ⟨(), ha, hrest⟩⟩

/-- The check of one type's properties, whatever file it is reported under. -/
theorem checkProperties_eq_ok_iff {files : List SourceFile} {d : SchemaType} :
    checkProperties files d = .ok () ↔ propertyFault? d = none := by
  unfold checkProperties
  cases propertyFault? d <;> simp

end Resolve

/-- Resolving a table entry by entry keeps its keys. -/
theorem names_mapM {α β : Type} {t : Table α} {u : Table β} {f : String × α → Outcome β}
    (h : t.mapM (fun e => (f e).map (e.1, ·)) = .ok u) : u.names = t.names := by
  have hsame : List.Forall₂ (fun (a : String × α) (b : String × β) => a.1 = b.1) t u := by
    refine (Outcome.mapM_eq_ok_iff.mp h).imp fun e e' he => ?_
    obtain ⟨b, _, rfl⟩ := Outcome.map_eq_ok.mp he
    rfl
  have hmap := List.forall₂_map_left_iff.mpr (List.forall₂_map_right_iff.mpr hsame)
  exact (List.forall₂_eq_eq_eq ▸ hmap : List.map Prod.fst t = List.map Prod.fst u).symm

/-- Each resolved entry comes from a declared one of the same key. -/
theorem exists_of_mapM {α β : Type} {t : Table α} {u : Table β} {f : String × α → Outcome β}
    (h : t.mapM (fun e => (f e).map (e.1, ·)) = .ok u) {e : String × β} (he : e ∈ u) :
    ∃ d ∈ t, f d = .ok e.2 ∧ e.1 = d.1 := by
  obtain ⟨d, hd, hde⟩ := Outcome.exists_of_mem_mapM h he
  obtain ⟨b, hb, rfl⟩ := Outcome.map_eq_ok.mp hde
  exact ⟨d, hd, hb, rfl⟩

/-- Declarations that can be resolved one by one, and then inherit, give types if the
properties of each are in order. -/
theorem resolve_eq_ok {files : List SourceFile} {own types : Table SchemaType}
    (hown : (Resolve.declared files).mapM (fun e =>
      (Resolve.ownType (Resolve.declared files) e.1 e.2).map (e.1, ·)) = .ok own)
    (htypes : own.mapM (fun e => (Resolve.inherit own e.2).map (e.1, ·)) = .ok types)
    (hproperties : ∀ e ∈ types, (e.2.properties.map Property.name).Nodup ∧
      (e.2.properties.filter fun p => p.identifier).length ≤ 1) : resolve files = .ok types := by
  have hcheck : types.forM (fun e => Resolve.checkProperties files e.2) = .ok () :=
    Resolve.forM_eq_ok_iff.mpr fun e he => Resolve.checkProperties_eq_ok_iff.mpr
      (Resolve.propertyFault_eq_none_iff.mpr (hproperties e he))
  exact Outcome.bind_eq_ok.mpr ⟨own, hown, Outcome.bind_eq_ok.mpr ⟨types, htypes,
    Outcome.bind_eq_ok.mpr ⟨(), hcheck, rfl⟩⟩⟩

/-- Every step of resolving that succeeds: the types with their own properties, the types
with the inherited ones, and the check of each. -/
theorem resolve_eq_ok_iff {files : List SourceFile} {types : Table SchemaType} :
    resolve files = .ok types ↔ ∃ own : Table SchemaType,
      (Resolve.declared files).mapM (fun e =>
        (Resolve.ownType (Resolve.declared files) e.1 e.2).map (e.1, ·)) = .ok own ∧
      own.mapM (fun e => (Resolve.inherit own e.2).map (e.1, ·)) = .ok types ∧
      ∀ e ∈ types, Resolve.propertyFault? e.2 = none := by
  constructor
  · intro h
    obtain ⟨own, hown, h⟩ := Outcome.bind_eq_ok.mp h
    obtain ⟨types', htypes, h⟩ := Outcome.bind_eq_ok.mp h
    obtain ⟨_, hchecks, h⟩ := Outcome.bind_eq_ok.mp h
    cases h
    exact ⟨own, hown, htypes, fun e he => Resolve.checkProperties_eq_ok_iff.mp
      (Resolve.forM_eq_ok_iff.mp hchecks e he)⟩
  · rintro ⟨own, hown, htypes, hchecks⟩
    exact resolve_eq_ok hown htypes fun e he =>
      Resolve.propertyFault_eq_none_iff.mp (hchecks e he)

/-- **Resolving gives resolved types.** -/
theorem resolve_resolved {files : List SourceFile} (hvalued : ∀ f ∈ files, f.model.Valued)
    {types : Table SchemaType} (h : resolve files = .ok types) : Resolved types := by
  obtain ⟨own, hown, htypes, hchecks⟩ := resolve_eq_ok_iff.mp h
  have hnames : Table.names own = (Resolve.declared files).names := names_mapM hown
  -- inheriting keeps names and supertypes
  have hsupers : Resolve.SameSupers own types := by
    refine (Outcome.mapM_eq_ok_iff.mp htypes).imp fun e e' he => ?_
    obtain ⟨t, ht, rfl⟩ := Outcome.map_eq_ok.mp he
    exact ⟨rfl, (Resolve.inherit_spec ht).2.2.2.1.symm⟩
  have hall : types.names = (Resolve.declared files).names := by
    rw [← hsupers.names, hnames]
  refine ⟨?_, ?_, ?_, ?_, ?_, ?_⟩
  · rw [hall]
    exact Resolve.nodup_declared files
  · intro e he
    obtain ⟨d, hd, ht, hkey⟩ := exists_of_mapM htypes he
    obtain ⟨b, _, hb, hkey'⟩ := exists_of_mapM hown hd
    rw [(Resolve.inherit_spec ht).1, (Resolve.ownType_spec hb).1, hkey, hkey']
  · intro e he p hp hprimitive
    obtain ⟨d, _, ht, _⟩ := exists_of_mapM htypes he
    obtain ⟨d', hd', hp'⟩ := (Resolve.inherit_spec ht).2.2.2.2.2 p hp
    obtain ⟨b, _, hb, _⟩ := exists_of_mapM hown hd'
    rcases (Resolve.ownType_spec hb).2.2.2 p hp' with h | h
    · rw [hprimitive] at h
      cases h
    · rw [hall]
      exact h
  · intro e he
    obtain ⟨d, hd, ht, hkey⟩ := exists_of_mapM htypes he
    obtain ⟨b, _, hb, hkey'⟩ := exists_of_mapM hown hd
    obtain ⟨chain, hchain⟩ := (Resolve.inherit_spec ht).2.2.2.2.1
    refine ⟨chain, ?_⟩
    rw [← hsupers.chain, hkey, hkey', ← (Resolve.ownType_spec hb).1, hchain]
  · intro e he henum
    obtain ⟨d, hd, ht, _⟩ := exists_of_mapM htypes he
    obtain ⟨b, hmem, hb, _⟩ := exists_of_mapM hown hd
    obtain ⟨_, hkind, hvalues, _⟩ := Resolve.inherit_spec ht
    obtain ⟨_, hkind', hvalues', _⟩ := Resolve.ownType_spec hb
    obtain ⟨hsource, hdeclaration⟩ := Resolve.mem_declared hmem
    rw [hvalues, hvalues']
    refine hvalued _ hsource _ hdeclaration ?_
    rw [← hkind', ← hkind]
    exact eq_of_beq henum
  · intro e he
    exact (Resolve.propertyFault_eq_none_iff.mp (hchecks e he)).1

/-! ### Catalogs -/

/-- An enumeration that was read has a value. -/
theorem TypeDeclaration.values_of_read {v : Value} {d : TypeDeclaration} (h : read v = .ok d)
    (hkind : d.kind = .enumeration) : d.values ≠ [] := by
  have hrefusal := (Shape.refuse_eq_ok.mp h).2
  intro hempty
  by_cases hproperties : d.properties = []
  · simp [refusal?, hkind, hproperties, hempty] at hrefusal
  · simp [refusal?, hkind, hproperties] at hrefusal

theorem ModelFile.valued_of_read {v : Value} {m : ModelFile} (h : read v = .ok m) : m.Valued := by
  obtain ⟨fs, _, h⟩ := Outcome.bind_eq_ok.mp h
  obtain ⟨g, hg, ds, hds, rfl⟩ := Shape.join_eq_ok.mp h
  obtain ⟨g', hg', imports, _, rfl⟩ := Shape.join_eq_ok.mp hg
  obtain ⟨mk, hmk, ns, _, rfl⟩ := Shape.join_eq_ok.mp hg'
  cases hmk
  intro d hd hkind
  rcases Shape.fieldOr_eq_ok hds with hdefault | ⟨w, hw⟩
  · have hnil : ds = [] := hdefault
    rw [show ModelFile.declarations ⟨ns, imports, ds⟩ = ds from rfl, hnil] at hd
    cases hd
  · obtain ⟨x, hx⟩ := Shape.mem_items hw hd
    exact TypeDeclaration.values_of_read hx hkind

/-- The files of a catalog can be resolved to types whose enumerations have values, and
its types are resolved. -/
structure Catalog.Sound (c : Catalog) : Prop where
  files : ∀ f ∈ c.files, f.model.Valued
  types : Resolved c.types

theorem SystemModel.valued : ∀ m ∈ SystemModel.files, m.Valued := by
  simp [SystemModel.files, ModelFile.Valued]

namespace Catalog

theorem resolved_nil : Resolved [] := by
  constructor <;> simp

/-- Resolving a catalog anew leaves it sound. -/
theorem sound_refresh {c c' : Catalog} (hfiles : ∀ f ∈ c.files, f.model.Valued)
    (h : c.refresh = .ok c') : c'.Sound := by
  obtain ⟨types, htypes, rfl⟩ := Outcome.map_eq_ok.mp h
  exact ⟨hfiles, resolve_resolved hfiles htypes⟩

theorem files_system : system.files = SystemModel.files.map (⟨·, none⟩) := by
  unfold system
  simp only
  split
  · rename_i c h
    obtain ⟨types, _, rfl⟩ := Outcome.map_eq_ok.mp h
    rfl
  · rfl

/-- The catalog of the system types alone is sound. -/
theorem sound_system : system.Sound := by
  have hfiles : ∀ f ∈ SystemModel.files.map (fun m => (⟨m, none⟩ : SourceFile)),
      f.model.Valued := by
    intro f hf
    obtain ⟨m, hm, rfl⟩ := List.mem_map.mp hf
    exact SystemModel.valued m hm
  unfold system
  simp only
  split
  · rename_i c h
    exact sound_refresh hfiles h
  · exact ⟨hfiles, resolved_nil⟩

theorem read_of_readModel {v : Value} {file : Option String} {m : ModelFile}
    (h : readModel v file = .ok m) : ∃ w, ModelFile.read w = .ok m := by
  unfold readModel at h
  simp only at h
  split at h
  · split at h
    · obtain ⟨w, _, h⟩ := Outcome.bind_eq_ok.mp h
      split at h
      · cases h
        exact ⟨w, ‹_›⟩
      · cases h
    · cases h
  · obtain ⟨w, _, h⟩ := Outcome.bind_eq_ok.mp h
    split at h
    · cases h
      exact ⟨w, ‹_›⟩
    · cases h

theorem valued_of_readModel {v : Value} {file : Option String} {m : ModelFile}
    (h : readModel v file = .ok m) : m.Valued := by
  obtain ⟨w, hw⟩ := read_of_readModel h
  exact ModelFile.valued_of_read hw

/-- Adding one file leaves a sound catalog sound, accepted or not. -/
theorem Sound.insert {c : Catalog} (hc : c.Sound) {m : ModelFile} (hm : m.Valued)
    (file : Option String) : (c.insert m file).2.Sound := by
  have hgrown : ∀ f ∈ c.files ++ [⟨m, file⟩], f.model.Valued := by
    intro f hf
    rcases List.mem_append.mp hf with hf | hf
    · exact hc.files f hf
    · simp only [List.mem_singleton] at hf
      exact hf ▸ hm
  unfold Catalog.insert
  split
  · exact hc
  · simp only
    split
    · rename_i c' h
      exact sound_refresh hgrown h
    · split
      · split
        · rename_i c' h
          exact sound_refresh hc.files h
        · exact hc
      · exact ⟨hgrown, hc.types⟩

/-- **Adding a file keeps a catalog sound**, also when the file is refused. -/
theorem Sound.add {c : Catalog} (hc : c.Sound) (v : Value) (file : Option String) :
    (c.add v file).2.Sound := by
  unfold Catalog.add
  split
  · exact hc
  · rename_i m hm
    have hvalued : m.Valued := valued_of_readModel hm
    have hinsert := hc.insert hvalued file
    split <;> simp_all

/-- The catalogs that can be built: the system types, and what adding a value as a model
file leaves behind, whether the file is accepted or not. -/
inductive Built : Catalog → Prop where
  | system : Built system
  | add {c : Catalog} (h : Built c) (v : Value) (file : Option String) : Built (c.add v file).2

/-- **The types of every catalog that can be built are resolved.** -/
theorem Built.sound {c : Catalog} (h : Built c) : c.Sound := by
  induction h with
  | system => exact sound_system
  | add _ v file ih => exact ih.add v file

end Catalog

/-! ### A small catalog -/

namespace Shop

/-- A model of orders, which have items, which have parts. -/
def model : ModelFile where
  ns := "shop"
  declarations :=
    [{ kind := .concept, name := "Part", properties := [{ name := "label", type := "String" }] },
     { kind := .concept, name := "Item"
       properties := [{ name := "note", type := "String" }, { name := "part", type := "Part" }] },
     { kind := .concept, name := "Order"
       properties := [{ name := "items", type := "Item", array := true }] }]

def catalog : Catalog :=
  (Catalog.system.add model.toValue).2

def part : SchemaType where
  fqn := "shop.Part"
  ns := "shop"
  name := "Part"
  kind := .concept
  properties := [{ name := "label", typeName := "String", type := "String" }]

def item : SchemaType where
  fqn := "shop.Item"
  ns := "shop"
  name := "Item"
  kind := .concept
  properties :=
    [{ name := "note", typeName := "String", type := "String" },
     { name := "part", typeName := "Part", type := "shop.Part" }]

def order : SchemaType where
  fqn := "shop.Order"
  ns := "shop"
  name := "Order"
  kind := .concept
  properties := [{ name := "items", typeName := "Item", type := "shop.Item", array := true }]

theorem built : catalog.Built :=
  .add .system _ _

def files : List SourceFile :=
  SystemModel.files.map (⟨·, none⟩) ++ [⟨model, none⟩]

theorem resolve_files : ∃ types, resolve files = .ok types ∧ types.find? part.fqn = some part ∧
    types.find? item.fqn = some item ∧ types.find? order.fqn = some order := by
  refine ⟨_, resolve_eq_ok rfl rfl ?_, ?_, ?_, ?_⟩
  all_goals decide +kernel

theorem readModel_model : Catalog.readModel model.toValue none = .ok model := by
  have hread : ModelFile.read model.toValue = .ok model := by cbv
  simp only [Catalog.readModel, ModelFile.toValue] at hread ⊢
  simp [hread, bind, Except.bind, pure, Except.pure]

/-- The catalog has its files, and the types that they resolve to. -/
theorem catalog_eq : ∃ types, catalog = { files, types } ∧ resolve files = .ok types := by
  obtain ⟨types, htypes, _⟩ := resolve_files
  have hnew : Catalog.system.hasFile model.ns = false := by
    unfold Catalog.hasFile
    rw [Catalog.files_system]
    cbv
  have hrefresh : Catalog.refresh
      { Catalog.system with files := Catalog.system.files ++ [⟨model, none⟩] }
      = .ok { files, types } := by
    rw [Catalog.refresh, Catalog.files_system]
    change Except.map _ (resolve files) = _
    rw [htypes]
    rfl
  refine ⟨types, ?_, htypes⟩
  rw [catalog, Catalog.add, readModel_model]
  simp only [Catalog.insert, hnew, hrefresh]
  rfl

/-- **The types of the model** are found in the catalog. -/
theorem find_types : catalog.types.find? part.fqn = some part ∧
    catalog.types.find? item.fqn = some item ∧ catalog.types.find? order.fqn = some order := by
  obtain ⟨types, hcatalog, htypes⟩ := catalog_eq
  obtain ⟨types', htypes', hfind⟩ := resolve_files
  obtain rfl : types' = types := Except.ok.inj (htypes'.symm.trans htypes)
  rw [hcatalog]
  exact hfind

end Shop

end Covenant
