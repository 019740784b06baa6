import Covenant.Proofs.Schema.Lineage

/-!
Model files that cannot be added.

* `Resolve.resolve_error`: resolving fails for a reason that the catalog reports, unless a
  declared type extends a primitive type.
* `Catalog.Reached.add_atomic`: a refused file leaves the catalog as it was, and a run of
  additions leads to the same catalog as its accepted files alone, unless such a type is
  declared; then the file may stay without its types.
* `Catalog.Reached.add_of_stuck`: from then on every file is refused.
-/

namespace Covenant

/-! ### Faults of resolving -/

namespace Resolve

def Stuck (files : List SourceFile) : Prop :=
  ∃ e ∈ declared files, ∃ n ∈ e.2.declaration.extends?, Primitive.isName n = true

instance (files : List SourceFile) : Decidable (Stuck files) :=
  inferInstanceAs (Decidable (∃ e ∈ declared files, ∃ n ∈ e.2.declaration.extends?,
    Primitive.isName n = true))

theorem modelFault_of_name {all : Table Declared} {source : SourceFile} {n place : String} {f : Fault}
    (h : name all source n place = .error f) : Catalog.isModelFault f = true := by
  unfold name at h
  split at h
  · cases h
  · cases h
    rfl

/-- Resolving the names in a declaration fails with a fault that the catalog reports. -/
theorem modelFault_of_ownType {all : Table Declared} {fqn : String} {d : Declared} {f : Fault}
    (h : ownType all fqn d = .error f) : Catalog.isModelFault f = true := by
  rcases Outcome.bind_eq_error.mp h with h | ⟨_, _, h⟩
  · unfold super at h
    split at h
    · split at h
      · cases h
      · exact modelFault_of_name (Outcome.map_eq_error.mp h)
    · cases h
  · rcases Outcome.bind_eq_error.mp h with h | ⟨_, _, h⟩
    · obtain ⟨p, _, h⟩ := Outcome.exists_of_mapM_error h
      rcases Outcome.bind_eq_error.mp h with h | ⟨_, _, h⟩
      · exact modelFault_of_name h
      · cases h
    · cases h

theorem modelFault_of_checkProperties {files : List SourceFile} {d : SchemaType} {f : Fault}
    (h : checkProperties files d = .error f) : Catalog.isModelFault f = true := by
  unfold checkProperties at h
  split at h
  · cases h
    rfl
  · cases h

def Lost (types : Table SchemaType) : Prop :=
  ∃ e ∈ types, ∃ s, e.2.super? = some s ∧ s ∉ types.names

/-- **Why there is no chain**: a type comes again on the way up, or the way leads to a
supertype that is not among the types. The steps allowed are always enough. -/
theorem chainFrom_error {types : Table SchemaType} {fqn : String} {fuel : Nat}
    {before : List String} {current : Option String} {f : Fault}
    (hbefore : before.Nodup ∧ before ⊆ types.names)
    (hfuel : types.length < fuel + before.length)
    (hcurrent : ∀ s, current = some s → ∃ e ∈ types, e.2.super? = some s)
    (h : chainFrom types fqn fuel before current = .error f) :
    Catalog.isModelFault f = true ∨ f.cause = .undefined ∧ Lost types := by
  induction fuel generalizing before current with
  | zero =>
    have hle := (hbefore.1.subperm hbefore.2).length_le
    rw [Table.names, List.length_map] at hle
    omega
  | succ fuel ih =>
    cases current with
    | none => cases h
    | some a =>
      rw [chainFrom] at h
      split at h
      · cases h
        exact .inl rfl
      · rename_i hnew
        split at h
        · rename_i d hd
          refine ih ⟨?_, ?_⟩ ?_ ?_ h
          · simpa [List.nodup_append, hbefore.1] using fun b hb (hba : b = a) => hnew (by simpa [hba] using hb)
          · exact List.append_subset.mpr
              ⟨hbefore.2, by simpa using Table.mem_names_of_find hd⟩
          · rw [List.length_append, List.length_singleton]
            omega
          · exact fun s hs => ⟨_, Table.mem_of_find hd, hs⟩
        · rename_i hnone
          cases h
          obtain ⟨e, he, hs⟩ := hcurrent a rfl
          exact .inr ⟨rfl, e, he, a, hs, Table.find_eq_none_iff.mp hnone⟩

theorem inherit_error {types : Table SchemaType} {d : SchemaType} {f : Fault}
    (hd : types.find? d.fqn = some d) (h : inherit types d = .error f) :
    Catalog.isModelFault f = true ∨ f.cause = .undefined ∧ Lost types := by
  rcases Outcome.bind_eq_error.mp h with h | ⟨_, _, h⟩
  · rw [chain, hd] at h
    refine chainFrom_error ⟨by simp, by simpa using Table.mem_names_of_find hd⟩ (by simp) ?_ h
    exact fun s hs => ⟨_, Table.mem_of_find hd, hs⟩
  · cases h

theorem exists_of_forM_error {α : Type} {f : α → Outcome Unit} {as : List α} {e : Fault}
    (h : as.forM f = .error e) : ∃ a ∈ as, f a = .error e := by
  induction as with
  | nil => cases h
  | cons a as ih =>
    rw [List.forM_eq_forM, List.forM_cons] at h
    rcases Outcome.bind_eq_error.mp h with h | ⟨_, _, h⟩
    · exact ⟨a, by simp, h⟩
    · obtain ⟨a', ha', h⟩ := ih h
      exact ⟨a', by simp [ha'], h⟩

/-- A supertype that is not among the types is a primitive type. -/
theorem stuck_of_lost {files : List SourceFile} {own : Table SchemaType}
    (hown : (declared files).mapM (fun e => (ownType (declared files) e.1 e.2).map (e.1, ·))
      = .ok own) (h : Lost own) : Stuck files := by
  obtain ⟨e, he, s, hs, hnone⟩ := h
  obtain ⟨t, ht, hof⟩ := declared_of_mapM hown e he
  have hsuper := hof.super
  rw [hs] at hsuper
  generalize hextends : t.declaration.extends?.filter (fun n => !n.isEmpty) = extends? at hsuper
  cases hsuper with
  | some hname =>
    refine ⟨_, ht, _, (Option.filter_eq_some_iff.mp hextends).1, ?_⟩
    by_contra hn
    rw [names_mapM hown] at hnone
    exact hnone (declared_of_name (Bool.not_eq_true _ ▸ hn) hname)

/-- **Why files cannot be resolved**: for a reason that the catalog reports, or because a
declared type extends a primitive type, which has no place among the types. -/
theorem resolve_error {files : List SourceFile} {f : Fault} (h : resolve files = .error f) :
    Catalog.isModelFault f = true ∨ f.cause = .undefined ∧ Stuck files := by
  rcases Outcome.bind_eq_error.mp h with h | ⟨own, hown, h⟩
  · obtain ⟨e, _, h⟩ := Outcome.exists_of_mapM_error h
    exact .inl (modelFault_of_ownType (Outcome.map_eq_error.mp h))
  rcases Outcome.bind_eq_error.mp h with h | ⟨types, _, h⟩
  · obtain ⟨e, he, h⟩ := Outcome.exists_of_mapM_error h
    have hnodup : (Table.names own).Nodup := names_mapM hown ▸ nodup_declared files
    obtain ⟨t, ht, hof⟩ := declared_of_mapM hown e he
    have hfind : Table.find? own e.2.fqn = some e.2 := by
      rw [hof.fqn, ← key_declared ht]
      exact (Table.find_eq_some_iff hnodup).mpr he
    exact (inherit_error hfind (Outcome.map_eq_error.mp h)).imp_right
      fun h => ⟨h.1, stuck_of_lost hown h.2⟩
  rcases Outcome.bind_eq_error.mp h with h | ⟨_, _, h⟩
  · obtain ⟨e, _, h⟩ := exists_of_forM_error h
    exact .inl (modelFault_of_checkProperties h)
  · cases h

theorem not_dotted_of_isPrimitive {n : String} (h : Primitive.isName n = true) :
    n.isEmpty = false ∧ '.' ∉ n.toList := by
  have hall : ∀ n ∈ Primitive.names.map Prod.fst, n.isEmpty = false ∧ '.' ∉ n.toList := by decide
  obtain ⟨k, hk⟩ := Option.isSome_iff_exists.mp h
  exact hall n (List.mem_map.mpr ⟨(n, k), Table.mem_of_find hk, rfl⟩)

/-- **Files with a type that extends a primitive type** cannot be resolved. -/
theorem Stuck.resolve_ne_ok {files : List SourceFile} (h : Stuck files) (types : Table SchemaType) :
    resolve files ≠ .ok types := by
  intro hok
  obtain ⟨⟨a, t⟩, ht, n, hextends, hn⟩ := h
  have hlineal := lineal_of_resolve hok
  obtain ⟨e, he, rfl⟩ := List.mem_map.mp
    (hlineal.names ▸ List.mem_map.mpr ⟨_, ht, rfl⟩ : a ∈ types.names)
  obtain ⟨t', own, ht', hof, _⟩ := hlineal.properties e he
  obtain rfl : t = t' :=
    (Prod.mk.inj (List.inj_on_of_nodup_map (nodup_declared files) ht ht' rfl)).2
  have hsuper := hof.super
  rw [Option.mem_def.mp hextends, Option.filter_some_pos (by simp [(not_dotted_of_isPrimitive hn).1])] at hsuper
  generalize hbase : e.2.super? = base at hsuper
  cases hsuper with
  | @some _ s hname =>
    rw [name?, if_pos hn, Option.some.injEq] at hname
    -- the names of declared types have points
    have hmem := hlineal.super e he s hbase
    rw [hlineal.names] at hmem
    obtain ⟨b, hb, hkey⟩ := List.mem_map.mp hmem
    have hdotted := qualified_dotted b.2.source.model.ns b.2.declaration.name
    rw [← key_declared hb, hkey, ← hname] at hdotted
    exact (not_dotted_of_isPrimitive hn).2 hdotted

/-- More files do not help. -/
theorem Stuck.append {files rest : List SourceFile} (hapart : Apart (files ++ rest))
    (h : Stuck files) : Stuck (files ++ rest) := by
  obtain ⟨e, he, h⟩ := h
  refine ⟨e, ?_, h⟩
  rw [declared_eq_flatMap hapart.of_append] at he
  rw [declared_eq_flatMap hapart, List.flatMap_append]
  exact List.mem_append_left _ he

end Resolve

/-! ### Catalogs -/

namespace Catalog

open Resolve

/-- JSON text with a whole number that is too long to be read. -/
def Overlong (v : Value) : Prop :=
  ∃ s f, v = .text s ∧ Json.read s = .error f ∧ f.issue = .longNumeral

theorem readModel_error {v : Value} {file : Option String} {f : Fault}
    (h : readModel v file = .error f) :
    isModelFault f = true ∨ f.cause = .undefined ∧ Overlong v := by
  unfold readModel at h
  simp only at h
  split at h
  · rename_i s
    split at h
    · -- what the text says is read as any other value
      obtain ⟨w, _, h⟩ := (Outcome.bind_eq_error.mp h).resolve_left fun h => by cases h
      split at h
      · cases h
      · cases h
        exact .inl rfl
    · rename_i j hj
      cases h
      by_cases hlong : j.issue = .longNumeral
      · simp only [hlong, if_true]
        exact .inr ⟨trivial, s, j, rfl, hj, hlong⟩
      · simp only [hlong, if_false]
        exact .inl rfl
  · obtain ⟨w, _, h⟩ := (Outcome.bind_eq_error.mp h).resolve_left fun h => by cases h
    split at h
    · cases h
    · cases h
      exact .inl rfl

theorem Reached.apart {c : Catalog} (hc : c.Reached) : Apart c.files := by
  induction hc with
  | empty => exact ⟨by simp, by simp⟩
  | system => exact settled_system.apart
  | @add c _ v file ih =>
    rcases files_add c v file with h | ⟨m, w, hw, hnew, h⟩
    · exact h ▸ ih
    · exact h ▸ ih.concat (ModelFile.named_of_read hw) hnew

theorem refresh_eq_error {c : Catalog} {f : Fault} (h : c.refresh = .error f) :
    isModelFault f = true ∨ f.cause = .undefined ∧ Stuck c.files :=
  resolve_error (Outcome.map_eq_error.mp h)

/-- **How adding a file ends**: with its types; with the catalog as it was; or, if a declared
type extends a primitive type, with the file but without its types. -/
theorem insert_cases {c : Catalog} (hc : resolve c.files = .ok c.types ∨ Stuck c.files)
    (m : ModelFile) (file : Option String) :
    (∃ types, c.insert m file = (.ok (), ⟨c.files ++ [⟨m, file⟩], types⟩) ∧
      resolve (c.files ++ [⟨m, file⟩]) = .ok types) ∨
    (∃ f, c.insert m file = (.error f, c) ∧
      (isModelFault f = true ∨ f.cause = .undefined ∧ Stuck c.files)) ∨
    ∃ f, c.insert m file = (.error f, ⟨c.files ++ [⟨m, file⟩], c.types⟩) ∧
      f.cause = .undefined ∧ Stuck (c.files ++ [⟨m, file⟩]) := by
  unfold insert
  split
  · exact .inr (.inl ⟨_, rfl, .inl rfl⟩)
  simp only
  split
  · rename_i d hd
    obtain ⟨types, htypes, rfl⟩ := Outcome.map_eq_ok.mp hd
    exact .inl ⟨types, rfl, htypes⟩
  rename_i f hf
  split
  · rename_i hmodel
    refine .inr (.inl ?_)
    split
    · rename_i d hd
      obtain ⟨types, htypes, rfl⟩ := Outcome.map_eq_ok.mp hd
      rcases hc with hc | hc
      · cases hc.symm.trans htypes
        exact ⟨f, rfl, .inl hmodel⟩
      · exact absurd htypes (hc.resolve_ne_ok types)
    · rename_i f' hf'
      exact ⟨f', rfl, refresh_eq_error hf'⟩
  · rename_i hmodel
    exact .inr (.inr ⟨f, rfl, (refresh_eq_error hf).resolve_left hmodel⟩)

/-- The types of a catalog are those of its files, unless a declared type extends a primitive
type. -/
theorem Reached.resolve_or_stuck {c : Catalog} (hc : c.Reached) :
    resolve c.files = .ok c.types ∨ Stuck c.files := by
  induction hc with
  | empty => exact .inl rfl
  | system => exact .inl settled_system.types
  | @add c _ v file ih =>
    rw [snd_add]
    split
    · rename_i m _
      rcases insert_cases ih m file with ⟨types, h, htypes⟩ | ⟨f, h, _⟩ | ⟨f, h, _, hstuck⟩
      · exact h ▸ .inl htypes
      · exact h ▸ ih
      · exact h ▸ .inr hstuck
    · exact ih

theorem Reached.settled {c : Catalog} (hc : c.Reached) (h : ¬ Stuck c.files) : c.Settled :=
  ⟨hc.apart, hc.resolve_or_stuck.resolve_right h⟩

/-- A refused file leaves the catalog as it was, or a declared type extends a primitive
type. -/
theorem Reached.add_error {c d : Catalog} (hc : c.Reached) {v : Value} {file : Option String}
    {f : Fault} (h : c.add v file = (.error f, d)) :
    (d = c ∧ (isModelFault f = true ∨ f.cause = .undefined ∧ (Overlong v ∨ Stuck c.files))) ∨
    ∃ m, readModel v file = .ok m ∧ d = { c with files := c.files ++ [⟨m, file⟩] } ∧
      f.cause = .undefined ∧ Stuck d.files := by
  unfold Catalog.add at h
  split at h
  · rename_i f' hf
    cases h
    exact .inl ⟨rfl, (readModel_error hf).imp_right fun h => ⟨h.1, .inl h.2⟩⟩
  · rename_i m hm
    rcases insert_cases hc.resolve_or_stuck m file with
      ⟨types, hinsert, _⟩ | ⟨f', hinsert, hfault⟩ | ⟨f', hinsert, hfault, hstuck⟩
    all_goals
      rw [hinsert] at h
      cases h
    · exact .inl ⟨rfl, hfault.imp_right fun h => ⟨h.1, .inr h.2⟩⟩
    · exact .inr ⟨m, hm, rfl, hfault, hstuck⟩

/-- **Once a declared type extends a primitive type**, every file is refused. -/
theorem Reached.add_of_stuck {c : Catalog} (hc : c.Reached) (h : Stuck c.files) (v : Value)
    (file : Option String) :
    (∃ f, (c.add v file).1 = .error f) ∧ Stuck (c.add v file).2.files := by
  have hapart : Apart (c.add v file).2.files := (hc.add v file).apart
  have hstuck : Stuck (c.add v file).2.files := by
    rcases files_add c v file with hfiles | ⟨m, _, _, _, hfiles⟩
    · exact hfiles ▸ h
    · rw [hfiles] at hapart ⊢
      exact h.append hapart
  refine ⟨?_, hstuck⟩
  rcases hadd : c.add v file with ⟨_ | m, d⟩
  · exact ⟨_, rfl⟩
  · have hok : ∃ m, c.add (v, file).1 (v, file).2 = (.ok m, d) := ⟨m, hadd⟩
    obtain ⟨g, _, _, htypes, hfiles⟩ := add_eq_ok_iff.mp hok
    rw [hadd, hfiles] at hstuck
    exact absurd htypes (hstuck.resolve_ne_ok _)

/-! ### Runs -/

/-- What a catalog is after adding files one after another, whether they are accepted or
not. -/
def addEach (c : Catalog) (vs : List (Value × Option String)) : Catalog :=
  vs.foldl (fun c v => (c.add v.1 v.2).2) c

/-- The files that are accepted when they are added one after another. -/
def accepted : Catalog → List (Value × Option String) → List (Value × Option String)
  | _, [] => []
  | c, v :: vs =>
    if (c.add v.1 v.2).1.isOk then v :: accepted (c.add v.1 v.2).2 vs
    else accepted (c.add v.1 v.2).2 vs

theorem Reached.addEach {c : Catalog} (hc : c.Reached) (vs : List (Value × Option String)) :
    (c.addEach vs).Reached := by
  induction vs generalizing c with
  | nil => exact hc
  | cons v vs ih => exact ih (hc.add v.1 v.2)

theorem Reached.stuck_addEach {c : Catalog} (hc : c.Reached) (h : Stuck c.files)
    (vs : List (Value × Option String)) : Stuck (c.addEach vs).files := by
  induction vs generalizing c with
  | nil => exact h
  | cons v vs ih => exact ih (hc.add v.1 v.2) (hc.add_of_stuck h v.1 v.2).2

/-- **Refused files leave no trace**: after a run of additions the catalog is what adding the
accepted files alone makes of it, as long as no declared type extends a primitive type. -/
theorem Reached.addAll_accepted {c : Catalog} (hc : c.Reached) {vs : List (Value × Option String)}
    (h : ¬ Stuck (c.addEach vs).files) : c.addAll (c.accepted vs) = .ok (c.addEach vs) := by
  induction vs generalizing c with
  | nil => rfl
  | cons v vs ih =>
    have hnext := hc.add v.1 v.2
    have hrest := ih hnext h
    rcases hadd : c.add v.1 v.2 with ⟨f | m, d⟩
    all_goals rw [hadd] at hnext hrest
    · have hd : d = c := by
        rcases hc.add_error hadd with ⟨hd, _⟩ | ⟨_, _, _, _, hstuck⟩
        · exact hd
        · have hstuck' := hnext.stuck_addEach hstuck vs
          exact absurd hstuck' (by simpa [Catalog.addEach, hadd] using h)
      simpa [accepted, Catalog.addEach, hadd, hd, Except.isOk, Except.toBool] using hrest
    · have hvs : c.accepted (v :: vs) = v :: d.accepted vs := by
        simp [accepted, hadd, Except.isOk, Except.toBool]
      have hend : c.addEach (v :: vs) = d.addEach vs := by
        simp [Catalog.addEach, hadd]
      rw [hvs, hend, addAll_cons_eq_ok]
      exact ⟨d, ⟨m, hadd⟩, hrest⟩

/-- **Adding a file is all or nothing** as long as no declared type extends a primitive type:
a refused file leaves the catalog as it was, with a fault that the catalog reports unless a
number in the text is too long, and so a run of additions leads to what its accepted files
alone lead to. If such a type is declared, the fault is no report, and the file may stay
without its types. -/
theorem Reached.add_atomic {c : Catalog} (hc : c.Reached) :
    (∀ {d : Catalog} {v : Value} {file : Option String} {f : Fault},
      c.add v file = (.error f, d) →
        (d = c ∧ (isModelFault f = true ∨ f.cause = .undefined ∧ (Overlong v ∨ Stuck c.files))) ∨
        ∃ m, readModel v file = .ok m ∧ d = { c with files := c.files ++ [⟨m, file⟩] } ∧
          f.cause = .undefined ∧ Stuck d.files) ∧
    ∀ vs, ¬ Stuck (c.addEach vs).files → c.addAll (c.accepted vs) = .ok (c.addEach vs) :=
  ⟨hc.add_error, fun _ => hc.addAll_accepted⟩

end Catalog

/-! ### Notes that extend texts -/

namespace Fleet

/-- A model of notes, which would be texts. -/
def notes : ModelFile where
  ns := "fleet.notes"
  declarations := [{ kind := .concept, name := "Note", extends? := some "String" }]

/-- Whether adding a file fails with a fault that the catalog reports, if it fails. -/
def reported? (c : Catalog) (m : ModelFile) : Option Bool :=
  match (c.add m.toValue).1 with
  | .ok _ => none
  | .error f => some (Catalog.isModelFault f)

theorem exists_of_reported {c : Catalog} {m : ModelFile} {b : Bool} (h : reported? c m = some b) :
    ∃ f d, c.add m.toValue = (.error f, d) ∧ Catalog.isModelFault f = b := by
  unfold reported? at h
  split at h
  · cases h
  · rename_i f hf
    exact ⟨f, _, Prod.ext hf rfl, Option.some.inj h⟩

def run : List (Value × Option String) :=
  [vehicles, loop, vans].map fun m => (m.toValue, none)

/-- A type that would be above itself is refused without a trace, and the models before and
after it are accepted. -/
theorem add_loop : Catalog.system.Reached ∧
    (∃ f, Catalog.system.add loop.toValue = (.error f, Catalog.system) ∧
      Catalog.isModelFault f = true) ∧
    Catalog.system.addAll (Catalog.system.accepted run) = .ok (Catalog.system.addEach run) ∧
    (Catalog.system.accepted run).length = 2 := by
  obtain ⟨hstep, hrun⟩ := Catalog.Reached.system.add_atomic
  refine ⟨.system, ?_, hrun run (by decide +kernel), by decide +kernel⟩
  have hreported : reported? Catalog.system loop = some true := by decide +kernel
  obtain ⟨f, d, hadd, hkind⟩ := exists_of_reported hreported
  have hfiles : (Catalog.system.add loop.toValue).2.files.length = 3 := by decide +kernel
  have hcount : d.files.length = 3 := (congrArg (fun x => x.2.files.length) hadd).symm.trans hfiles
  rcases hstep hadd with ⟨rfl, _⟩ | ⟨m, _, rfl, _⟩
  · exact ⟨f, hadd, hkind⟩
  · rw [Catalog.files_system] at hcount
    cases hcount

/-- **A type that extends a primitive type** is refused by a fault that is no report, and the
catalog is not as it was: afterwards it does not accept a model that it would accept. -/
theorem notes_remain :
    reported? Catalog.system notes = some false ∧
    (Catalog.system.add notes.toValue).2.files ≠ Catalog.system.files ∧
    (Catalog.system.add vehicles.toValue).1.isOk = true ∧
    ((Catalog.system.add notes.toValue).2.add vehicles.toValue).1.isOk = false := by
  decide +kernel

end Fleet

end Covenant
