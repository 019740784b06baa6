import Covenant.Proofs.Schema.Order

/-!
Supertypes and inherited properties.

* `Resolve.chain_eq_ok_iff`: the chain of a type is its way up, from supertype to
  supertype until a type has none, and such a way visits no type twice.
* `Resolve.lineal_of_resolve`: types that could be resolved have declared supertypes and
  property types, and the properties of the supertype in front of their own.
* `Catalog.isSubtype_iff`, `Catalog.concreteSubtypes_spec`: being a subtype is the
  reflexive and transitive closure of having a supertype, and the concrete subtypes are
  those found by it.
* `Catalog.Reached.lineage`: so it is in every catalog that adding files leads to, whichever
  of them were refused.
-/

namespace Covenant

namespace Resolve

/-! ### Ways up -/

/-- The way up from a type: each type is followed by its supertype, and the last one has
none. -/
inductive Climbs (types : Table SchemaType) : Option String → List String → Prop where
  | done : Climbs types none []
  | step {fqn : String} {d : SchemaType} {rest : List String} (hd : types.find? fqn = some d)
      (hrest : Climbs types d.super? rest) : Climbs types (some fqn) (fqn :: rest)

def Extends (types : Table SchemaType) (fqn base : String) : Prop :=
  ∃ d, types.find? fqn = some d ∧ d.super? = some base

namespace Climbs

variable {types : Table SchemaType} {start : Option String} {way : List String}

/-- There is one way up from a type. -/
theorem unique {way' : List String} (h : Climbs types start way) (h' : Climbs types start way') :
    way = way' := by
  induction h generalizing way' with
  | done =>
    cases h'
    rfl
  | step hd _ ih =>
    cases h' with
    | step hd' hrest' =>
      cases hd.symm.trans hd'
      rw [ih hrest']

/-- The rest of a way up is the way up from where it starts. -/
theorem split (h : Climbs types start way) {fqn : String} (hmem : fqn ∈ way) :
    ∃ before after, way = before ++ fqn :: after ∧ Climbs types (some fqn) (fqn :: after) := by
  induction h with
  | done => cases hmem
  | @step a d rest hd hrest ih =>
    rcases List.mem_cons.mp hmem with rfl | hmem
    · exact ⟨[], rest, rfl, .step hd hrest⟩
    · obtain ⟨before, after, rfl, hafter⟩ := ih hmem
      exact ⟨a :: before, after, rfl, hafter⟩

/-- **A way up visits no type twice**: from a type there is one way, which is not longer
than itself. -/
theorem nodup (h : Climbs types start way) : way.Nodup := by
  induction h with
  | done => exact List.nodup_nil
  | @step a d rest hd hrest ih =>
    refine List.nodup_cons.mpr ⟨fun hmem => ?_, ih⟩
    obtain ⟨before, after, hsplit, hafter⟩ := hrest.split hmem
    have hrest' : rest = after := List.tail_eq_of_cons_eq ((step hd hrest).unique hafter)
    have hlength := congrArg List.length hsplit
    rw [hrest'] at hlength
    simp at hlength
    omega

/-- The way up passes through types of the table. -/
theorem subset (h : Climbs types start way) : way ⊆ types.names := by
  induction h with
  | done => simp
  | step hd _ ih => exact List.cons_subset.mpr ⟨Table.mem_names_of_find hd, ih⟩

/-- The way up is no longer than the table. -/
theorem length_le (h : Climbs types start way) : way.length ≤ types.length := by
  have hle := (h.nodup.subperm h.subset).length_le
  rwa [Table.names, List.length_map] at hle

/-- **What is on the way up** is what can be reached from supertype to supertype. -/
theorem mem_iff {fqn : String} (h : Climbs types (some fqn) way) {base : String} :
    base ∈ way ↔ Relation.ReflTransGen (Extends types) fqn base := by
  constructor
  · intro hmem
    generalize hstart : some fqn = start at h
    induction h generalizing fqn with
    | done => cases hmem
    | @step a d rest hd hrest ih =>
      cases hstart
      rcases List.mem_cons.mp hmem with rfl | hmem
      · exact .refl
      · cases hsuper : d.super? with
        | none =>
          rw [hsuper] at hrest
          cases hrest
          cases hmem
        | some b => exact .head ⟨d, hd, hsuper⟩ (ih hmem hsuper.symm)
  · intro hreach
    induction hreach using Relation.ReflTransGen.head_induction_on generalizing way with
    | refl =>
      cases h
      simp
    | head hstep _ ih =>
      obtain ⟨d, hd, hsuper⟩ := hstep
      cases h with
      | step hd' hrest =>
        cases hd.symm.trans hd'
        rw [hsuper] at hrest
        exact List.mem_cons_of_mem _ (ih hrest)

/-- The way up depends on the super types alone. -/
theorem of_same {types' : Table SchemaType}
    (hsame : ∀ key, (types.find? key).map SchemaType.super? = (types'.find? key).map SchemaType.super?)
    (h : Climbs types start way) : Climbs types' start way := by
  induction h with
  | done => exact .done
  | @step a d rest hd _ ih =>
    obtain ⟨d', hd', hsuper⟩ : ∃ d', types'.find? a = some d' ∧ d'.super? = d.super? := by
      have hmap := hsame a
      rw [hd] at hmap
      simpa using hmap.symm
    exact .step hd' (hsuper ▸ ih)

end Climbs

/-! ### Chains -/

section Chain

variable {types : Table SchemaType}

/-- A type without a supertype ends the chain. -/
theorem chainFrom_none_iff {fqn : String} {fuel : Nat} {before l : List String} :
    chainFrom types fqn fuel before none = .ok l ↔ ∃ way, l = before ++ way ∧
      Climbs types none way ∧ way.length ≤ fuel ∧ ∀ a ∈ way, a ∉ before := by
  have hend : chainFrom types fqn fuel before none = .ok before := by cases fuel <;> rfl
  rw [hend]
  constructor
  · intro h
    cases h
    exact ⟨[], by simp, .done, by simp, by simp⟩
  · rintro ⟨way, rfl, hway, -, -⟩
    cases hway
    simp

/-- The chain is found, without a cycle and within the fuel, exactly if it is the way up. -/
theorem chainFrom_eq_ok_iff {fqn : String} {fuel : Nat} {before : List String}
    {current : Option String} {l : List String} :
    chainFrom types fqn fuel before current = .ok l ↔ ∃ way, l = before ++ way ∧
      Climbs types current way ∧ way.length ≤ fuel ∧ ∀ a ∈ way, a ∉ before := by
  induction fuel generalizing before current with
  | zero =>
    cases current with
    | none => exact chainFrom_none_iff
    | some a =>
      refine iff_of_false (fun h => by cases h) ?_
      rintro ⟨way, -, hway, hlength, -⟩
      cases hway
      simp at hlength
  | succ fuel ih =>
    cases current with
    | none => exact chainFrom_none_iff
    | some a =>
      rw [chainFrom]
      constructor
      · intro h
        split at h
        · cases h
        · rename_i hnew
          split at h
          · rename_i d hd
            obtain ⟨way, rfl, hway, hlength, hapart⟩ := ih.mp h
            refine ⟨a :: way, by simp, .step hd hway, by simpa using hlength, ?_⟩
            intro b hb
            rcases List.mem_cons.mp hb with rfl | hb
            · simpa using hnew
            · exact fun hmem => hapart b hb (by simp [hmem])
          · cases h
      · rintro ⟨way, rfl, hway, hlength, hapart⟩
        have hnodup := hway.nodup
        cases hway with
        | @step _ d way hd hway =>
          have hnew : ¬ before.contains a = true := by simpa using hapart a (by simp)
          rw [if_neg hnew, hd]
          refine ih.mpr ⟨way, by simp, hway, by simpa using hlength, fun b hb hmem => ?_⟩
          rcases List.mem_append.mp hmem with hmem | hmem
          · exact hapart b (by simp [hb]) hmem
          · exact (List.nodup_cons.mp hnodup).1 (List.mem_singleton.mp hmem ▸ hb)

/-- **The chain of a type** is the way up from it. -/
theorem chain_eq_ok_iff {fqn : String} {l : List String} :
    chain types fqn = .ok l ↔ Climbs types (some fqn) l := by
  unfold chain
  constructor
  · intro h
    split at h
    · rename_i d hd
      obtain ⟨way, rfl, hway, -, -⟩ := chainFrom_eq_ok_iff.mp h
      exact .step hd hway
    · cases h
  · intro h
    have hnodup := h.nodup
    cases h with
    | @step _ d way hd hway =>
      have hlength := hway.length_le
      rw [hd]
      refine chainFrom_eq_ok_iff.mpr ⟨way, rfl, hway, by omega, fun b hb hmem => ?_⟩
      exact (List.nodup_cons.mp hnodup).1 (List.mem_singleton.mp hmem ▸ hb)

end Chain

/-! ### Declarations -/

/-- A property as it was declared, without what the name of its type refers to. -/
def declarationOf (p : Property) : PropertyDeclaration :=
  ⟨p.name, p.typeName, p.array, p.optional, p.identifier, p.relationship⟩

/-- A type with properties of its own as a declaration gives them: the names of the
supertype and of the types of the properties are resolved in its file. -/
structure OfDeclaration (all : Table Declared) (t : Declared) (d : SchemaType)
    (own : List Property) : Prop where
  fqn : d.fqn = t.source.model.ns ++ "." ++ t.declaration.name
  ns : d.ns = t.source.model.ns
  name : d.name = t.declaration.name
  kind : d.kind = t.declaration.kind
  abstract : d.abstract = t.declaration.abstract
  values : d.values = t.declaration.values
  super : Option.Rel (fun n s => name? all t.source n = some s)
    (t.declaration.extends?.filter fun n => !n.isEmpty) d.super?
  own : List.Forall₂ (fun p q => declarationOf q = p ∧ name? all t.source p.type = some q.type)
    t.declaration.properties own

def inherited (types : Table SchemaType) (d : SchemaType) : List Property :=
  ((d.super?.bind types.find?).map SchemaType.properties).getD []

/-- Types of files that inherit from each other in good order. -/
structure Lineal (files : List SourceFile) (types : Table SchemaType) : Prop where
  names : types.names = (declared files).names
  nodup : types.names.Nodup
  fqn : ∀ e ∈ types, e.2.fqn = e.1
  super : ∀ e ∈ types, ∀ s, e.2.super? = some s → s ∈ types.names
  chain : ∀ e ∈ types, ∃ l, Resolve.chain types e.1 = .ok l ∧ l.Nodup ∧
    Climbs types (some e.1) l
  target : ∀ e ∈ types, ∀ p ∈ e.2.properties,
    Primitive.isName p.type = true ∨ p.type ∈ types.names
  properties : ∀ e ∈ types, ∃ t own, (e.1, t) ∈ declared files ∧
    OfDeclaration (declared files) t e.2 own ∧ e.2.properties = inherited types e.2 ++ own
  distinct : ∀ e ∈ types, (e.2.properties.map Property.name).Nodup
  identifier : ∀ e ∈ types, (e.2.properties.filter fun p => p.identifier).length ≤ 1

/-- A name resolves exactly if one of the three look-ups finds it. -/
theorem name_eq_ok_iff {all : Table Declared} {source : SourceFile} {n place fqn : String} :
    name all source n place = .ok fqn ↔ name? all source n = some fqn := by
  unfold name
  cases name? all source n <;> simp

/-- What a resolved super type is. -/
theorem super_eq_ok {all : Table Declared} {source : SourceFile} {fqn : String}
    {d : TypeDeclaration} {super? : Option String} (h : super all source fqn d = .ok super?) :
    Option.Rel (fun n s => name? all source n = some s) (d.extends?.filter fun n => !n.isEmpty)
      super? := by
  unfold super at h
  cases hextends : d.extends? with
  | none =>
    rw [hextends] at h
    cases h
    exact .none
  | some n =>
    rw [hextends] at h
    simp only at h
    split at h
    · rename_i hempty
      cases h
      rw [Option.filter_some_neg (by simpa using hempty)]
      exact .none
    · rename_i hfull
      obtain ⟨s, hs, rfl⟩ := Outcome.map_eq_ok.mp h
      rw [Option.filter_some_pos (by simpa using hfull)]
      exact .some (name_eq_ok_iff.mp hs)

/-- What a resolved property is. -/
theorem property_eq_ok {all : Table Declared} {source : SourceFile} {fqn : String}
    {p : PropertyDeclaration} {q : Property} (h : property all source fqn p = .ok q) :
    declarationOf q = p ∧ name? all source p.type = some q.type := by
  obtain ⟨type, htype, h⟩ := Outcome.bind_eq_ok.mp h
  cases h
  exact ⟨rfl, name_eq_ok_iff.mp htype⟩

/-- A type with its own properties only is what its declaration gives. -/
theorem ofDeclaration_of_ownType {all : Table Declared} {t : Declared} {d : SchemaType}
    (h : ownType all (t.source.model.ns ++ "." ++ t.declaration.name) t = .ok d) :
    OfDeclaration all t d d.properties := by
  obtain ⟨super?, hsuper, h⟩ := Outcome.bind_eq_ok.mp h
  obtain ⟨properties, hproperties, h⟩ := Outcome.bind_eq_ok.mp h
  cases h
  exact ⟨rfl, rfl, rfl, rfl, rfl, rfl, super_eq_ok hsuper,
    (Outcome.mapM_eq_ok_iff.mp hproperties).imp fun _ _ => property_eq_ok⟩

theorem OfDeclaration.type_declared {all : Table Declared} {t : Declared} {d : SchemaType}
    {own : List Property} (h : OfDeclaration all t d own) {p : Property} (hp : p ∈ own) :
    Primitive.isName p.type = true ∨ p.type ∈ all.names := by
  obtain ⟨i, hi, rfl⟩ := List.mem_iff_getElem.mp hp
  obtain ⟨hlength, hall⟩ := List.forall₂_iff_get.mp h.own
  exact name_declared (hall i (hlength ▸ hi) hi).2

/-- The properties of the types of a way, those of the last type first. -/
def gathered (own : Table SchemaType) (way : List String) : List Property :=
  way.reverse.flatMap fun a => ((own.find? a).map SchemaType.properties).getD []

theorem gathered_cons (own : Table SchemaType) (a : String) (way : List String) :
    gathered own (a :: way)
      = gathered own way ++ ((own.find? a).map SchemaType.properties).getD [] := by
  simp [gathered]

/-- The properties of a type: those along its way up, the furthest first. -/
theorem inherit_eq_ok_iff {own : Table SchemaType} {d t : SchemaType} :
    inherit own d = .ok t ↔ ∃ way, Climbs own (some d.fqn) way ∧
      t = { d with properties := gathered own way } := by
  unfold inherit
  rw [Outcome.bind_eq_ok]
  refine exists_congr fun way => and_congr chain_eq_ok_iff ?_
  exact ⟨fun h => by cases h; rfl, fun h => by rw [h]; rfl⟩

/-- How types come from the types with their own properties only. -/
structure Inheriting (files : List SourceFile) (own types : Table SchemaType) : Prop where
  names : own.names = (declared files).names
  declared : ∀ e ∈ own, ∃ t, (e.1, t) ∈ Resolve.declared files ∧
    OfDeclaration (Resolve.declared files) t e.2 e.2.properties
  same : SameSupers own types
  gathered : ∀ e ∈ types, ∃ d, (e.1, d) ∈ own ∧ ∃ way, Climbs own (some e.1) way ∧
    e.2 = { d with properties := gathered own way }

theorem declared_of_mapM {files : List SourceFile} {own : Table SchemaType}
    (h : (declared files).mapM (fun e => (ownType (declared files) e.1 e.2).map (e.1, ·)) = .ok own) :
    ∀ e ∈ own, ∃ t, (e.1, t) ∈ declared files ∧
      OfDeclaration (declared files) t e.2 e.2.properties := by
  intro e he
  obtain ⟨t, ht, hd, hname⟩ := exists_of_mapM h he
  rw [key_declared ht] at hd
  exact ⟨t.2, hname ▸ ht, ofDeclaration_of_ownType hd⟩

/-- Resolution goes through a table of the types' own properties. -/
theorem exists_inheriting {files : List SourceFile} {types : Table SchemaType}
    (h : resolve files = .ok types) : ∃ own, Inheriting files own types := by
  obtain ⟨own, hown, htypes, _⟩ := resolve_eq_ok_iff.mp h
  have hdeclared := declared_of_mapM hown
  refine ⟨own, names_mapM hown, hdeclared, ?_, ?_⟩
  · refine (Outcome.mapM_eq_ok_iff.mp htypes).imp fun e e' he => ?_
    obtain ⟨t, ht, rfl⟩ := Outcome.map_eq_ok.mp he
    exact ⟨rfl, (inherit_spec ht).2.2.2.1.symm⟩
  · intro e he
    obtain ⟨⟨a, d⟩, hd, ht, hname⟩ := exists_of_mapM htypes he
    obtain ⟨way, hway, htype⟩ := inherit_eq_ok_iff.mp ht
    obtain ⟨t, ht, hof⟩ := hdeclared _ hd
    rw [hof.fqn, ← key_declared ht] at hway
    exact ⟨d, hname ▸ hd, way, hname ▸ hway, htype⟩

namespace Inheriting

variable {files : List SourceFile} {own types : Table SchemaType}

theorem nodup (h : Inheriting files own types) : own.names.Nodup :=
  h.names ▸ nodup_declared files

theorem names_types (h : Inheriting files own types) : types.names = own.names :=
  h.same.names.symm

theorem nodup_types (h : Inheriting files own types) : types.names.Nodup :=
  h.names_types ▸ h.nodup

/-- A type starts a way up, among the types with their own properties as among all types. -/
theorem exists_climbs (h : Inheriting files own types) {e : String × SchemaType} (he : e ∈ types) :
    ∃ way, Climbs types (some e.1) way := by
  obtain ⟨_, _, way, hway, _⟩ := h.gathered e he
  exact ⟨way, hway.of_same h.same.find⟩

/-- What is gathered on a way up from a supertype are the properties that the supertype has
after inheriting. -/
theorem properties_super (h : Inheriting files own types) {super? : Option String}
    {way : List String} (hway : Climbs own super? way) :
    ((super?.bind types.find?).map SchemaType.properties).getD [] = Resolve.gathered own way := by
  cases hway with
  | done => rfl
  | @step s _ rest hd hrest =>
    obtain ⟨e, he⟩ := Table.exists_find (h.names_types ▸ Table.mem_names_of_find hd : s ∈ types.names)
    obtain ⟨_, _, way', hway', htype⟩ := h.gathered _ (Table.mem_of_find he)
    simp only at hway' htype
    rw [Option.bind_some, he, htype, hway'.unique (.step hd hrest)]
    rfl

/-- A type has the properties of its supertype and then those of its declaration. -/
theorem properties_eq (h : Inheriting files own types) {e : String × SchemaType} (he : e ∈ types) :
    ∃ t own, (e.1, t) ∈ Resolve.declared files ∧ OfDeclaration (Resolve.declared files) t e.2 own ∧
      e.2.properties = inherited types e.2 ++ own := by
  obtain ⟨d, hd, way, hway, htype⟩ := h.gathered e he
  obtain ⟨t, ht, hof⟩ := h.declared _ hd
  have hfind : own.find? e.1 = some d := (Table.find_eq_some_iff h.nodup).mpr hd
  refine ⟨t, d.properties, ht, ?_, ?_⟩
  · rw [htype]
    exact ⟨hof.fqn, hof.ns, hof.name, hof.kind, hof.abstract, hof.values, hof.super, hof.own⟩
  · cases hway with
    | @step _ d' rest hd' hrest =>
      cases hfind.symm.trans hd'
      have hsuper : inherited types e.2 = Resolve.gathered own rest := by
        rw [htype]
        exact h.properties_super hrest
      rw [hsuper, htype, gathered_cons, hfind]
      rfl

/-- The super type of a resolved type is in the table. -/
theorem super_declared (h : Inheriting files own types) {e : String × SchemaType} (he : e ∈ types)
    {s : String} (hs : e.2.super? = some s) : s ∈ types.names := by
  obtain ⟨way, hway⟩ := h.exists_climbs he
  have hfind : types.find? e.1 = some e.2 := (Table.find_eq_some_iff h.nodup_types).mpr he
  cases hway with
  | step hd hrest =>
    cases hfind.symm.trans hd
    rw [hs] at hrest
    exact hrest.subset (by cases hrest; simp)

/-- So is the type of every property that is no primitive. -/
theorem type_declared (h : Inheriting files own types) {e : String × SchemaType} (he : e ∈ types)
    {p : Property} (hp : p ∈ e.2.properties) :
    Primitive.isName p.type = true ∨ p.type ∈ types.names := by
  obtain ⟨d, _, way, _, htype⟩ := h.gathered e he
  rw [htype] at hp
  obtain ⟨a, _, ha⟩ := List.mem_flatMap.mp hp
  cases hfind : own.find? a with
  | none => simp [hfind] at ha
  | some b =>
    obtain ⟨t, _, hof⟩ := h.declared _ (Table.mem_of_find hfind)
    rw [h.names_types, h.names]
    exact hof.type_declared (by simpa [hfind] using ha)

end Inheriting

/-- **Types that could be resolved** inherit from each other in good order. -/
theorem lineal_of_resolve {files : List SourceFile} {types : Table SchemaType}
    (h : resolve files = .ok types) : Lineal files types := by
  obtain ⟨own, hown⟩ := exists_inheriting h
  obtain ⟨_, _, _, hchecks⟩ := resolve_eq_ok_iff.mp h
  refine ⟨hown.names_types.trans hown.names, hown.nodup_types, ?fqn,
    fun e he s => hown.super_declared he, ?chain, fun e he p => hown.type_declared he,
    fun e he => hown.properties_eq he, ?distinct, ?identifier⟩
  case fqn =>
    intro e he
    obtain ⟨t, _, ht, hof, _⟩ := hown.properties_eq he
    rw [hof.fqn, ← key_declared ht]
  case chain =>
    intro e he
    obtain ⟨way, hway⟩ := hown.exists_climbs he
    exact ⟨way, chain_eq_ok_iff.mpr hway, hway.nodup, hway⟩
  case distinct =>
    intro e he
    exact (propertyFault_eq_none_iff.mp (hchecks e he)).1
  case identifier =>
    intro e he
    exact (propertyFault_eq_none_iff.mp (hchecks e he)).2

end Resolve

/-! ### Catalogs -/

namespace Catalog

open Resolve

/-- **Being a subtype** is having the other type on the way up, in as many steps as it
takes. -/
theorem isSubtype_iff {c : Catalog} {files : List SourceFile} (hc : Lineal files c.types)
    {fqn : String} (hfqn : fqn ∈ c.types.names) (base : String) :
    ∃ answer, c.isSubtype fqn base = .ok answer ∧
      (answer = true ↔ Relation.ReflTransGen (Extends c.types) fqn base) := by
  obtain ⟨e, he, rfl⟩ := List.mem_map.mp hfqn
  obtain ⟨way, hchain, _, hway⟩ := hc.chain e he
  refine ⟨way.contains base, Outcome.map_eq_ok.mpr ⟨way, hchain, rfl⟩, ?_⟩
  rw [List.contains_iff_mem]
  exact hway.mem_iff

/-- **The concrete subtypes of a type** are the other types that are not abstract and have it
in their chain, in the order of all types. -/
theorem concreteSubtypes_spec {c : Catalog} {files : List SourceFile} (hc : Lineal files c.types)
    {base : String} (hbase : base ∈ c.types.names) :
    ∃ ds, c.concreteSubtypes base = .ok ds ∧ ds.Sublist c.types.values ∧
      ∀ d ∈ c.types.values, d ∈ ds ↔ d.abstract = false ∧ d.fqn ≠ base ∧
        ∃ l, c.chain d.fqn = .ok l ∧ base ∈ l := by
  have hchain : ∀ d ∈ c.types.values, ∃ l, c.chain d.fqn = .ok l := by
    intro d hd
    obtain ⟨e, he, rfl⟩ := List.mem_map.mp hd
    obtain ⟨l, hl, _⟩ := hc.chain e he
    exact ⟨l, hc.fqn e he ▸ hl⟩
  let below (d : SchemaType) : Bool :=
    !d.abstract && d.fqn != base && (c.isSubtype d.fqn base).toOption.getD false
  have hfilter : c.concreteSubtypes base = .ok (c.types.values.filter below) := by
    obtain ⟨d, hd⟩ := Table.exists_find hbase
    refine Outcome.bind_eq_ok.mpr ⟨d, by simp [get, hd], Outcome.filterM_eq_ok_filter ?_⟩
    intro d hd
    obtain ⟨l, hl⟩ := hchain d hd
    have hsubtype : c.isSubtype d.fqn base = .ok (l.contains base) :=
      Outcome.map_eq_ok.mpr ⟨l, hl, rfl⟩
    by_cases hskip : d.fqn = base ∨ d.abstract = true
    · rw [if_pos hskip]
      rcases hskip with hskip | hskip <;> simp [below, hskip, pure, Except.pure]
    · rw [not_or, Bool.not_eq_true] at hskip
      simp [below, hskip, hsubtype, Except.toOption]
  refine ⟨_, hfilter, List.filter_sublist, fun d hd => ?_⟩
  obtain ⟨l, hl⟩ := hchain d hd
  simp [below, hd, isSubtype, hl, Except.map, Except.toOption, and_assoc]

/-- The catalogs that adding files leads to: it starts empty or with the system types, and
adding a value leaves it as it is or changes it, whether the value is accepted or not. -/
inductive Reached : Catalog → Prop where
  | empty : Reached {}
  | system : Reached system
  | add {c : Catalog} (h : Reached c) (v : Value) (file : Option String) :
      Reached (c.add v file).2

theorem Built.reached {c : Catalog} (h : c.Built) : c.Reached := by
  induction h with
  | system => exact .system
  | add _ v file ih => exact ih.add v file

theorem Reached.sound {c : Catalog} (h : c.Reached) : c.Sound := by
  induction h with
  | empty => exact ⟨by simp, resolved_nil⟩
  | system => exact sound_system
  | add _ v file ih => exact ih.add v file

/-- The types of catalogs that adding files leads to are declared in their files. -/
theorem Reached.declared {c : Catalog} (h : c.Reached) : ∀ e ∈ c.types, Declares c.files e.2 := by
  induction h with
  | empty => simp
  | system => exact Built.system.declared
  | add _ v file ih => exact declares_add ih v file

/-- The files of catalogs that adding files leads to declare names. -/
theorem Reached.named {c : Catalog} (h : c.Reached) : ∀ f ∈ c.files, f.model.Named := by
  induction h with
  | empty => simp
  | system => exact Built.system.named
  | add _ v file ih => exact named_add ih v file

/-- The names of a type's properties differ from each other and from the key of types. -/
theorem Reached.nodup_keys {c : Catalog} (hc : c.Reached) {d : SchemaType}
    (hd : c.types.find? d.fqn = some d) : (classKey :: d.properties.map Property.name).Nodup := by
  have hmem := Table.mem_of_find hd
  refine List.nodup_cons.mpr ⟨fun hkey => ?_, hc.sound.types.properties _ hmem⟩
  obtain ⟨p, hp, hname⟩ := List.mem_map.mp hkey
  obtain ⟨f, hf, t, ht, q, hq, hqp⟩ := (hc.declared _ hmem).properties p hp
  exact ne_classKey_of_isName ((hc.named f hf).properties t ht q hq).1 (hqp.trans hname)

/-- The types of a catalog are those of a beginning of its files. -/
theorem Reached.exists_resolve {c : Catalog} (hc : c.Reached) :
    ∃ files, files <+: c.files ∧ resolve files = .ok c.types := by
  induction hc with
  | empty => exact ⟨[], List.prefix_rfl, rfl⟩
  | system => exact ⟨_, List.prefix_rfl, settled_system.types⟩
  | @add c _ v file ih =>
    have hrefresh : ∀ {b d : Catalog}, b.refresh = .ok d →
        ∃ files, files <+: d.files ∧ resolve files = .ok d.types := by
      intro b d h
      obtain ⟨types, htypes, rfl⟩ := Outcome.map_eq_ok.mp h
      exact ⟨_, List.prefix_rfl, htypes⟩
    rw [snd_add]
    split
    · unfold insert
      split
      · exact ih
      · simp only
        split
        · rename_i d hd
          exact hrefresh hd
        · split
          · split
            · rename_i d hd
              exact hrefresh hd
            · exact ih
          · -- the file stays, and the types are as they were
            obtain ⟨files, hfiles, htypes⟩ := ih
            exact ⟨files, hfiles.trans (List.prefix_append _ _), htypes⟩
    · exact ih

/-- **The types of every catalog** that adding files leads to inherit from each other in good
order: supertypes and the types of properties are declared, chains of supertypes end without
a repetition, the properties of a type are those of its supertype and then those it declares,
all of different names and at most one of them an identifier. Subtypes are found by following
supertypes, and so are the concrete ones among them. -/
theorem Reached.lineage {c : Catalog} (hc : c.Reached) :
    (∃ files, files <+: c.files ∧ Lineal files c.types) ∧
    (∀ fqn ∈ c.types.names, ∀ base, ∃ answer, c.isSubtype fqn base = .ok answer ∧
      (answer = true ↔ Relation.ReflTransGen (Extends c.types) fqn base)) ∧
    ∀ base ∈ c.types.names, ∃ ds, c.concreteSubtypes base = .ok ds ∧
      ds.Sublist c.types.values ∧
      ∀ d ∈ c.types.values, d ∈ ds ↔ d.abstract = false ∧ d.fqn ≠ base ∧
        ∃ l, c.chain d.fqn = .ok l ∧ base ∈ l := by
  obtain ⟨files, hfiles, htypes⟩ := hc.exists_resolve
  have hlineal := lineal_of_resolve htypes
  exact ⟨⟨files, hfiles, hlineal⟩, fun fqn hfqn => isSubtype_iff hlineal hfqn,
    fun base => concreteSubtypes_spec hlineal⟩

end Catalog

/-! ### A fleet -/

namespace Fleet

/-- A model of vehicles, some of which are cars. -/
def vehicles : ModelFile where
  ns := "fleet.vehicles"
  declarations :=
    [{ kind := .asset, name := "Vehicle", abstract := true
       properties := [{ name := "plate", type := "String", identifier := true }] },
     { kind := .asset, name := "Car", extends? := some "Vehicle"
       properties := [{ name := "seats", type := "Integer" }] }]

def loop : ModelFile where
  ns := "fleet.loop"
  declarations := [{ kind := .concept, name := "Loop", extends? := some "Loop" }]

/-- A model of vans, which are cars. -/
def vans : ModelFile where
  ns := "fleet.vans"
  imports := ["fleet.vehicles.*"]
  declarations :=
    [{ kind := .asset, name := "Van", extends? := some "Car"
       properties := [{ name := "load", type := "Double" }] }]

/-- The system types after adding the models, of which the second is refused. -/
def catalog : Catalog :=
  (((Catalog.system.add vehicles.toValue).2.add loop.toValue).2.add vans.toValue).2

/-- Vans are vehicles, and one of the two concrete kinds of vehicles. -/
theorem lineage_catalog : catalog.Reached ∧ catalog.has "fleet.loop.Loop" = false ∧
    Relation.ReflTransGen (Resolve.Extends catalog.types) "fleet.vans.Van"
      "fleet.vehicles.Vehicle" ∧
    ∃ ds, catalog.concreteSubtypes "fleet.vehicles.Vehicle" = .ok ds ∧
      ds.map SchemaType.fqn = ["fleet.vehicles.Car", "fleet.vans.Van"] := by
  have hreached : catalog.Reached := .add (.add (.add .system _ _) _ _) _ _
  obtain ⟨_, hsubtype, hconcrete⟩ := hreached.lineage
  refine ⟨hreached, by decide +kernel, ?_, ?_⟩
  · obtain ⟨answer, hanswer, hiff⟩ :=
      hsubtype "fleet.vans.Van" (by decide +kernel) "fleet.vehicles.Vehicle"
    have heval : (catalog.isSubtype "fleet.vans.Van" "fleet.vehicles.Vehicle").toOption
        = some true := by
      decide +kernel
    rw [hanswer] at heval
    exact hiff.mp (Option.some.inj heval)
  · obtain ⟨ds, hds, _⟩ := hconcrete "fleet.vehicles.Vehicle" (by decide +kernel)
    have heval : ((catalog.concreteSubtypes "fleet.vehicles.Vehicle").map
        (·.map SchemaType.fqn)).toOption = some ["fleet.vehicles.Car", "fleet.vans.Van"] := by
      decide +kernel
    rw [hds] at heval
    exact ⟨ds, hds, Option.some.inj heval⟩

end Fleet

end Covenant
