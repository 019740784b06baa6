import Covenant.Proofs.Schema.Names

/-!
The order in which model files are added.

* `resolve_perm`: files of different namespaces resolve to the same types in every
  order, since what a name refers to does not depend on the order of the files.
* `Catalog.addAll_eq_ok_iff`: files can be added one after another when their
  namespaces are new and every beginning of the list can be resolved on its own.
* `Catalog.addAll_perm`: when files can be added in some order, then every order in
  which each file refers to what is already there leads to the same types, and no
  other order can be added.
-/

namespace Covenant

/-! ### Declarations -/

namespace Resolve

/-- Files that declare names, each of its own namespace. -/
structure Apart (files : List SourceFile) : Prop where
  named : ∀ f ∈ files, f.model.Named
  namespaces : (files.map fun f => f.model.ns).Nodup

theorem Apart.perm {files files' : List SourceFile} (h : Apart files)
    (hperm : files.Perm files') : Apart files' :=
  ⟨fun f hf => h.named f (hperm.mem_iff.mpr hf), (hperm.map _).nodup_iff.mp h.namespaces⟩

theorem Apart.of_append {files files' : List SourceFile} (h : Apart (files ++ files')) :
    Apart files :=
  ⟨fun f hf => h.named f (by simp [hf]),
    h.namespaces.sublist ((List.sublist_append_left _ _).map _)⟩

/-- One more file of a new namespace. -/
theorem Apart.concat {files : List SourceFile} (h : Apart files) {f : SourceFile}
    (hnamed : f.model.Named) (hnew : f.model.ns ∉ files.map (fun g => g.model.ns)) :
    Apart (files ++ [f]) := by
  constructor
  · intro g hg
    rcases List.mem_append.mp hg with hg | hg
    · exact h.named g hg
    · exact List.mem_singleton.mp hg ▸ hnamed
  · rw [List.map_append, List.map_singleton]
    exact List.nodup_append.mpr ⟨h.namespaces, by simp, by
      intro ns hns ns' hns' heq
      rw [List.mem_singleton.mp hns'] at heq
      exact hnew (heq ▸ hns)⟩

/-- The declarations of one file by their fully-qualified names, in order. -/
def entries (f : SourceFile) : Table Declared :=
  f.model.declarations.map fun d => (f.model.ns ++ "." ++ d.name, ⟨f, d⟩)

theorem declared_eq (files : List SourceFile) :
    declared files
      = (files.flatMap entries).foldl (fun (t : Table Declared) e => t.put e.1 e.2) [] :=
  rfl

/-- **Each file declares its own names**, so the declarations of files follow one
another file by file. -/
theorem declared_eq_flatMap {files : List SourceFile} (h : Apart files) :
    declared files = files.flatMap fun f => declared [f] := by
  induction files with
  | nil => rfl
  | cons f files ih =>
    have hrest : Apart files :=
      ⟨fun g hg => h.named g (by simp [hg]), (List.nodup_cons.mp h.namespaces).2⟩
    have hfresh : ∀ e ∈ files.flatMap entries, e.1 ∉ (declared [f]).names := by
      intro e he hmem
      obtain ⟨g, hg, he⟩ := List.mem_flatMap.mp he
      obtain ⟨d, hd, rfl⟩ := List.mem_map.mp he
      obtain ⟨e', he', hkey⟩ := List.mem_map.mp hmem
      rcases Table.mem_foldl_put he' with he' | he'
      · cases he'
      · obtain ⟨d', hd', rfl⟩ : ∃ d' ∈ f.model.declarations,
            (f.model.ns ++ "." ++ d'.name, (⟨f, d'⟩ : Declared)) = e' := by
          simpa using he'
        have hns : f.model.ns = g.model.ns :=
          (qualified_inj (not_dotted_of_isName ((h.named f (by simp)).types d' hd'))
            (not_dotted_of_isName ((hrest.named g hg).types d hd)) hkey).1
        exact (List.nodup_cons.mp h.namespaces).1 (List.mem_map.mpr ⟨g, hg, hns.symm⟩)
    have hsplit := Table.foldl_put_append hfresh []
    rw [List.append_nil] at hsplit
    rw [List.flatMap_cons, ← ih hrest, declared_eq, declared_eq files, List.flatMap_cons,
      List.foldl_append, ← hsplit, declared_eq [f], List.flatMap_singleton]

/-- Files in another order declare the same types in another order. -/
theorem declared_perm {files files' : List SourceFile} (h : Apart files)
    (hperm : files.Perm files') : (declared files).Perm (declared files') := by
  rw [declared_eq_flatMap h, declared_eq_flatMap (h.perm hperm)]
  exact hperm.flatMap_right _

/-! ### References -/

section References

variable {all all' : Table Declared}

theorem imported_perm (hperm : all.Perm all') (name imported : String) :
    imported? all name imported = imported? all' name imported := by
  simp only [imported?, Table.has_perm hperm]

/-- A short name is that of the only system type in whatever order the types stand. -/
theorem system_perm (hperm : all.Perm all') (name : String) :
    system? all name = system? all' name := by
  have hfilter := hperm.filter fun e =>
    SystemModel.isNamespace e.2.source.model.ns && e.2.declaration.name == name
  have hone : ∀ {t u : Table Declared} {e : String × Declared}, t.Perm u → t = [e] → u = [e] :=
    fun h ht => List.perm_singleton.mp (ht ▸ h.symm)
  unfold system?
  split
  · rename_i e he
    rw [hone hfilter he]
  · rename_i hnone
    split
    · rename_i e he
      exact absurd (hone hfilter.symm he) (hnone e)
    · rfl

/-- **What a name refers to does not depend on the order** of the declarations. -/
theorem name_perm (hperm : all.Perm all') (source : SourceFile) (n : String) :
    name? all source n = name? all' source n := by
  simp only [name?, Table.has_perm hperm, system_perm hperm, funext (imported_perm hperm n)]

theorem ownType_perm (hperm : all.Perm all') (fqn : String) (d : Declared) :
    ownType all fqn d = ownType all' fqn d := by
  have hname : name all = name all' := by
    funext source n place
    simp only [name, name_perm hperm]
  have hproperty : property all = property all' := by
    funext source fqn p
    simp only [property, hname]
  have hsuper : super all = super all' := by
    funext source fqn d
    simp only [super, hname]
  simp only [ownType, hproperty, hsuper]

end References

/-! ### Supertypes -/

section Supertypes

variable {own own' : Table SchemaType}

theorem chainFrom_perm (hnames : own.names.Nodup) (hperm : own.Perm own') (fqn : String)
    (fuel : Nat) (chain : List String) (current : Option String) :
    chainFrom own fqn fuel chain current = chainFrom own' fqn fuel chain current := by
  induction fuel generalizing chain current with
  | zero => cases current <;> rfl
  | succ fuel ih =>
    cases current with
    | none => rfl
    | some current => simp only [chainFrom, Table.find_perm hnames hperm, ih]

theorem inherit_perm (hnames : own.names.Nodup) (hperm : own.Perm own') (d : SchemaType) :
    inherit own d = inherit own' d := by
  have hchain : chain own d.fqn = chain own' d.fqn := by
    simp only [chain, Table.find_perm hnames hperm, hperm.length_eq,
      chainFrom_perm hnames hperm]
  simp only [inherit, hchain, Table.find_perm hnames hperm]

end Supertypes

end Resolve

theorem nodup_names_resolve {files : List SourceFile} {types : Table SchemaType}
    (h : resolve files = .ok types) : types.names.Nodup := by
  obtain ⟨own, hown, htypes, _⟩ := resolve_eq_ok_iff.mp h
  rw [names_mapM htypes, names_mapM hown]
  exact Resolve.nodup_declared files

/-- **Files in another order resolve to the same types**, in another order. -/
theorem resolve_perm {files files' : List SourceFile} (hfiles : Resolve.Apart files)
    (hperm : files.Perm files') {types : Table SchemaType} (h : resolve files = .ok types) :
    ∃ types', resolve files' = .ok types' ∧ types.Perm types' := by
  have hall : (Resolve.declared files).Perm (Resolve.declared files') :=
    Resolve.declared_perm hfiles hperm
  obtain ⟨own, hown, htypes, hchecks⟩ := resolve_eq_ok_iff.mp h
  have hnames : own.names.Nodup := by
    rw [names_mapM hown]
    exact Resolve.nodup_declared files
  obtain ⟨own', hown', hown''⟩ := Outcome.mapM_perm hall hown
  obtain ⟨types', htypes', hperm'⟩ := Outcome.mapM_perm hown'' htypes
  simp only [Resolve.ownType_perm hall] at hown'
  simp only [Resolve.inherit_perm hnames hown''] at htypes'
  exact ⟨types', resolve_eq_ok_iff.mpr ⟨own', hown', htypes',
    fun e he => hchecks e (hperm'.mem_iff.mpr he)⟩, hperm'⟩

/-! ### Adding several files -/

namespace Catalog

/-- A value, or JSON text, as a model file together with the file it comes from. -/
def readSource (v : Value × Option String) : Outcome SourceFile :=
  (readModel v.1 v.2).map (⟨·, v.2⟩)

/-- A catalog with files added one after another, or the first fault. -/
def addAll (c : Catalog) (vs : List (Value × Option String)) : Outcome Catalog :=
  vs.foldlM (fun c v =>
    match c.add v.1 v.2 with
    | (.ok _, c) => .ok c
    | (.error f, _) => .error f) c

theorem ofModels_eq_addAll (models : List Value) :
    ofModels models = system.addAll (models.map (·, none)) := by
  rw [addAll, List.foldlM_map]
  rfl

/-- A catalog whose types are those of its files, which are named and apart. -/
structure Settled (c : Catalog) : Prop where
  apart : Resolve.Apart c.files
  types : resolve c.files = .ok c.types

/-- **Adding a file succeeds** when it is one, its namespace is new, and all files
together can be resolved. -/
theorem add_eq_ok_iff {c d : Catalog} {v : Value × Option String} :
    (∃ m, c.add v.1 v.2 = (.ok m, d)) ↔ ∃ f, readSource v = .ok f ∧
      f.model.ns ∉ c.files.map (fun g => g.model.ns) ∧
      resolve (c.files ++ [f]) = .ok d.types ∧ d.files = c.files ++ [f] := by
  have hinsert : ∀ m, c.insert m v.2 = (.ok (), d) ↔
      m.ns ∉ c.files.map (fun g => g.model.ns) ∧
      resolve (c.files ++ [⟨m, v.2⟩]) = .ok d.types ∧ d.files = c.files ++ [⟨m, v.2⟩] := by
    intro m
    have hnew : c.hasFile m.ns = true ↔ m.ns ∈ c.files.map (fun g => g.model.ns) := by
      simp [hasFile]
    by_cases hmem : m.ns ∈ c.files.map (fun g => g.model.ns)
    · simp only [insert, if_pos (hnew.mpr hmem), hmem, not_true_eq_false, false_and, iff_false]
      exact fun h => by cases (Prod.mk.inj h).1
    · simp only [insert, if_neg (fun h => hmem (hnew.mp h)), hmem, not_false_eq_true, true_and]
      cases hresolve : resolve (c.files ++ [⟨m, v.2⟩]) with
      | ok types =>
        obtain ⟨files, types'⟩ := d
        simp [refresh, hresolve, Except.map, eq_comm, and_comm]
      | error f =>
        simp only [refresh, hresolve, Except.map]
        simp only [reduceCtorEq, false_and, iff_false]
        intro h
        repeat' split at h
        all_goals cases (Prod.mk.inj h).1
  unfold add readSource
  cases hread : readModel v.1 v.2 with
  | error f => simp [Except.map]
  | ok m =>
    simp only [Except.map, Except.ok.injEq, exists_eq_left', ← hinsert m]
    constructor
    · rintro ⟨m', h⟩
      split at h
      · rename_i c' hc'
        rw [hc', (Prod.mk.inj h).2]
      · cases (Prod.mk.inj h).1
    · intro h
      exact ⟨m, by rw [h]⟩

theorem Settled.add {c d : Catalog} (hc : c.Settled) {f : SourceFile}
    (hnamed : f.model.Named) (hnew : f.model.ns ∉ c.files.map (fun g => g.model.ns))
    (htypes : resolve (c.files ++ [f]) = .ok d.types) (hfiles : d.files = c.files ++ [f]) :
    d.Settled :=
  ⟨hfiles ▸ hc.apart.concat hnamed hnew, hfiles ▸ htypes⟩

theorem named_of_readSource {v : Value × Option String} {f : SourceFile}
    (h : readSource v = .ok f) : f.model.Named := by
  obtain ⟨m, hm, rfl⟩ := Outcome.map_eq_ok.mp h
  obtain ⟨w, hw⟩ := read_of_readModel hm
  exact ModelFile.named_of_read hw

theorem addAll_cons_eq_ok {c d : Catalog} {v : Value × Option String}
    {vs : List (Value × Option String)} :
    c.addAll (v :: vs) = .ok d ↔
      ∃ c', (∃ m, c.add v.1 v.2 = (.ok m, c')) ∧ c'.addAll vs = .ok d := by
  rw [addAll, List.foldlM_cons, Outcome.bind_eq_ok]
  refine exists_congr fun c' => and_congr_left fun _ => ?_
  constructor
  · intro h
    split at h
    · rename_i m _ hm
      cases h
      exact ⟨m, hm⟩
    · cases h
  · rintro ⟨m, hm⟩
    rw [hm]

/-- **Files can be added one after another** when all of them are files, their namespaces
are new and differ, and every beginning of the list can be resolved on its own. -/
theorem addAll_eq_ok_iff {c d : Catalog} (hc : c.Settled) {vs : List (Value × Option String)} :
    c.addAll vs = .ok d ↔ ∃ files, vs.mapM readSource = .ok files ∧
      ((c.files ++ files).map fun f => f.model.ns).Nodup ∧
      (∀ k, ∃ types, resolve (c.files ++ files.take k) = .ok types) ∧
      resolve (c.files ++ files) = .ok d.types ∧ d.files = c.files ++ files := by
  induction vs generalizing c with
  | nil =>
    have hd : d = c ↔ d.types = c.types ∧ d.files = c.files := by
      cases c
      cases d
      simp [and_comm]
    simp [addAll, pure, Except.pure, hc.apart.namespaces, hc.types, eq_comm, hd]
  | cons v vs ih =>
    rw [addAll_cons_eq_ok]
    constructor
    · rintro ⟨c', hadd, h⟩
      obtain ⟨f, hf, hnew, htypes, hfiles⟩ := add_eq_ok_iff.mp hadd
      have hc' : c'.Settled := hc.add (named_of_readSource hf) hnew htypes hfiles
      obtain ⟨files, hread, hnodup, hbeginnings, hall, hd⟩ := (ih hc').mp h
      rw [hfiles, List.append_assoc, List.singleton_append] at hnodup hall hd
      refine ⟨f :: files, Outcome.mapM_cons_ok.mpr ⟨f, hf, files, hread, rfl⟩, hnodup, ?_, hall, hd⟩
      intro k
      cases k with
      | zero => exact ⟨c.types, by simpa using hc.types⟩
      | succ k => simpa [hfiles] using hbeginnings k
    · rintro ⟨files, hreads, hnodup, hbeginnings, hall, hd⟩
      obtain ⟨f, hf, files, hread, rfl⟩ := Outcome.mapM_cons_ok.mp hreads
      obtain ⟨types, htypes⟩ := hbeginnings 1
      have hnew : f.model.ns ∉ c.files.map (fun g => g.model.ns) := by
        intro hmem
        rw [List.map_append] at hnodup
        exact (List.nodup_append.mp hnodup).2.2 _ hmem _ (by simp) rfl
      refine ⟨⟨c.files ++ [f], types⟩, add_eq_ok_iff.mpr ⟨f, hf, hnew, htypes, rfl⟩, ?_⟩
      have hc' : Settled ⟨c.files ++ [f], types⟩ := hc.add (named_of_readSource hf) hnew htypes rfl
      refine (ih hc').mpr ⟨files, hread, ?_, ?_, ?_, ?_⟩
      · simpa using hnodup
      · intro k
        simpa using hbeginnings (k + 1)
      · simpa using hall
      · simpa using hd

/-- **Another order** of files that can be added leads to the same types. It can be added
exactly when every beginning of it can be resolved on its own, which is what fails when
a file refers to one that comes later. -/
theorem addAll_perm {c d : Catalog} (hc : c.Settled) {vs ws : List (Value × Option String)}
    (hperm : vs.Perm ws) (h : c.addAll vs = .ok d) :
    (∀ d', c.addAll ws = .ok d' → d.files.Perm d'.files ∧
      ∀ fqn, d'.types.find? fqn = d.types.find? fqn) ∧
    ((∃ d', c.addAll ws = .ok d') ↔ ∀ k, ∃ files types,
      (ws.take k).mapM readSource = .ok files ∧ resolve (c.files ++ files) = .ok types) := by
  obtain ⟨files, hread, hnodup, _, hall, hd⟩ := (addAll_eq_ok_iff hc).mp h
  obtain ⟨files', hread', hfiles⟩ := Outcome.mapM_perm hperm hread
  have happend : (c.files ++ files).Perm (c.files ++ files') := hfiles.append_left _
  have hapart : Resolve.Apart (c.files ++ files) := by
    refine ⟨fun f hf => ?_, hnodup⟩
    rcases List.mem_append.mp hf with hf | hf
    · exact hc.apart.named f hf
    · obtain ⟨v, _, hv⟩ := Outcome.exists_of_mem_mapM hread hf
      exact named_of_readSource hv
  obtain ⟨types', htypes', htypes⟩ := resolve_perm hapart happend hall
  refine ⟨fun d' hd' => ?_, fun ⟨d', hd'⟩ k => ?_, fun hbeginnings => ?_⟩
  · obtain ⟨files'', hread'', _, _, hall'', hfiles''⟩ := (addAll_eq_ok_iff hc).mp hd'
    cases hread'.symm.trans hread''
    cases htypes'.symm.trans hall''
    rw [hd, hfiles'']
    exact ⟨happend, fun fqn => (Table.find_perm (nodup_names_resolve hall) htypes fqn).symm⟩
  · obtain ⟨files'', hread'', _, hbeginnings, _, _⟩ := (addAll_eq_ok_iff hc).mp hd'
    obtain ⟨types, htypes⟩ := hbeginnings k
    exact ⟨files''.take k, types, Outcome.mapM_take hread'' k, htypes⟩
  · refine ⟨⟨c.files ++ files', types'⟩, (addAll_eq_ok_iff hc).mpr
      ⟨files', hread', (happend.map _).nodup_iff.mp hnodup, fun k => ?_, htypes', rfl⟩⟩
    obtain ⟨gs, types, hgs, htypes⟩ := hbeginnings k
    cases hgs.symm.trans (Outcome.mapM_take hread' k)
    exact ⟨types, htypes⟩

theorem settled_system : system.Settled := by
  obtain ⟨types, htypes⟩ : ∃ types, resolve (SystemModel.files.map (⟨·, none⟩)) = .ok types := by
    refine ⟨_, resolve_eq_ok rfl rfl ?_⟩
    decide +kernel
  have hsystem : system = ⟨SystemModel.files.map (⟨·, none⟩), types⟩ := by
    simp only [system, refresh, htypes, Except.map]
  rw [hsystem]
  refine ⟨⟨fun f hf => ?_, ?_⟩, htypes⟩
  · obtain ⟨m, hm, rfl⟩ := List.mem_map.mp hf
    exact SystemModel.named m hm
  · change ((SystemModel.files.map fun m => (⟨m, none⟩ : SourceFile)).map fun f => f.model.ns).Nodup
    decide_cbv

end Catalog

/-! ### A library -/

namespace Library

def books : ModelFile where
  ns := "library.books"
  declarations :=
    [{ kind := .concept, name := "Book", properties := [{ name := "title", type := "String" }] }]

def members : ModelFile where
  ns := "library.members"
  declarations :=
    [{ kind := .participant, name := "Member"
       properties := [{ name := "email", type := "String", identifier := true }] }]

/-- A model of loans, which are loans of books to members. -/
def loans : ModelFile where
  ns := "library.loans"
  imports := ["library.members.*"]
  declarations :=
    [{ kind := .concept, name := "Loan"
       properties :=
         [{ name := "book", type := "library.books.Book" },
          { name := "member", type := "Member" }] }]

def given (ms : List ModelFile) : List (Value × Option String) :=
  ms.map fun m => (m.toValue, none)

/-- The files of a catalog with the system types and some models. -/
def files (ms : List ModelFile) : List SourceFile :=
  SystemModel.files.map (⟨·, none⟩) ++ ms.map (⟨·, none⟩)

theorem read_models : ∀ m ∈ [books, members, loans], ModelFile.read m.toValue = .ok m := by
  have hbooks : ModelFile.read books.toValue = .ok books := by cbv
  have hmembers : ModelFile.read members.toValue = .ok members := by cbv
  have hloans : ModelFile.read loans.toValue = .ok loans := by cbv
  simp [hbooks, hmembers, hloans]

theorem mapM_readSource {ms : List ModelFile} (h : ∀ m ∈ ms, m ∈ [books, members, loans]) :
    (given ms).mapM Catalog.readSource = .ok (ms.map (⟨·, none⟩)) := by
  rw [given, List.mapM_map]
  refine Outcome.mapM_eq_ok_map fun m hm => ?_
  have hread := read_models m (h m hm)
  simp only [ModelFile.toValue] at hread
  simp [Catalog.readSource, Catalog.readModel, ModelFile.toValue, hread, Except.map, bind,
    Except.bind, pure, Except.pure]

/-- Every beginning of two of the orders can be resolved, and the loans alone cannot. -/
theorem resolve_beginnings :
    ((∀ k ≤ 3, (resolve (files ([books, members, loans].take k))).isOk = true) ∧
      ∀ k ≤ 3, (resolve (files ([members, books, loans].take k))).isOk = true) ∧
    (resolve (files [loans])).isOk = false := by
  decide +kernel

/-- Models can be added to the system types in an order in which every beginning can be
resolved. -/
theorem exists_addAll {ms : List ModelFile} (h : ∀ m ∈ ms, m ∈ [books, members, loans])
    (hnodup : ((files ms).map fun f => f.model.ns).Nodup)
    (hbeginnings : ∀ k ≤ ms.length, (resolve (files (ms.take k))).isOk = true) :
    ∃ d, Catalog.system.addAll (given ms) = .ok d := by
  have hresolve : ∀ k, ∃ types, resolve (files (ms.take k)) = .ok types := by
    intro k
    rw [List.take_eq_take_min, ← Outcome.isOk_iff]
    exact hbeginnings _ (by omega)
  obtain ⟨types, htypes⟩ := hresolve ms.length
  rw [List.take_length] at htypes
  refine ⟨⟨files ms, types⟩, (Catalog.addAll_eq_ok_iff Catalog.settled_system).mpr
    ⟨_, mapM_readSource h, ?_, fun k => ?_, ?_, ?_⟩⟩
  all_goals rw [Catalog.files_system]
  · exact hnodup
  · rw [← List.map_take]
    exact hresolve k
  · exact htypes
  · rfl

theorem addAll_books_first : ∃ d, Catalog.system.addAll (given [books, members, loans]) = .ok d :=
  exists_addAll (by simp) (by decide_cbv) resolve_beginnings.1.1

/-- Loans cannot be added before the books and members that they refer to. -/
theorem not_addAll_loans_first :
    (∃ d, Catalog.system.addAll (given [books, members, loans]) = .ok d) ∧
    [books, members, loans].Perm [loans, books, members] ∧
    ¬ ∃ d, Catalog.system.addAll (given [loans, books, members]) = .ok d := by
  have hperm : ([books, members] ++ [loans]).Perm ([loans] ++ [books, members]) :=
    List.perm_append_comm
  refine ⟨addAll_books_first, hperm, fun ⟨d, hd⟩ => ?_⟩
  obtain ⟨_, hread, _, hbeginnings, _⟩ :=
    (Catalog.addAll_eq_ok_iff Catalog.settled_system).mp hd
  cases hread.symm.trans (mapM_readSource (by simp))
  have hloans := resolve_beginnings.2
  obtain ⟨types, htypes⟩ := hbeginnings 1
  rw [Catalog.files_system] at htypes
  change resolve (files [loans]) = _ at htypes
  simp [htypes, Except.isOk, Except.toBool] at hloans

/-- Members may be added before or after the books. -/
theorem addAll_members_first :
    Catalog.system.Settled ∧
    (given [books, members, loans]).Perm (given [members, books, loans]) ∧
    ∃ d, Catalog.system.addAll (given [books, members, loans]) = .ok d ∧
      ∃ d', Catalog.system.addAll (given [members, books, loans]) = .ok d' ∧
        d.files.Perm d'.files ∧ ∀ fqn, d'.types.find? fqn = d.types.find? fqn := by
  have hperm : (given [books, members, loans]).Perm (given [members, books, loans]) :=
    List.Perm.swap _ _ _
  obtain ⟨d, hd⟩ := addAll_books_first
  obtain ⟨d', hd'⟩ : ∃ d, Catalog.system.addAll (given [members, books, loans]) = .ok d :=
    exists_addAll (by simp) (by decide_cbv) resolve_beginnings.1.2
  exact ⟨Catalog.settled_system, hperm, d, hd, d', hd',
    (Catalog.addAll_perm Catalog.settled_system hperm hd).1 d' hd'⟩

end Library

end Covenant
