import Covenant.Proofs.Schema.Explore
import Covenant.Proofs.Schema.Refusals

/-!
What becomes of the declarations of accepted files.

* `Resolve.mem_declared_of_mem`: among the declarations of files are those that are the last of
  their name in their file.
* `Catalog.acceptedFiles`: the files that a run of additions accepts.
* `Catalog.Records`: the types of a catalog are those of the files that were accepted on the way to
  it. `Catalog.Records.add_ok`, `Catalog.Records.add_error`: an addition keeps this, whether the
  file is accepted or not. `Catalog.Records.addEach`: so does a run of them.
* `Catalog.Keeps`: a declaration is the one that the type of its name comes from.
* `Catalog.Records.allKept_iff`: every declaration is kept, and has a type of its own, just if no
  file declares a name twice.
-/

namespace Covenant

/-! ### Declarations of the same name -/

def Declared.fqn (t : Declared) : String :=
  t.source.model.ns ++ "." ++ t.declaration.name

/-- **A declaration that is the last of its name in its file.** -/
def Declared.IsLast (t : Declared) : Prop :=
  ∃ before after, t.source.model.declarations = before ++ t.declaration :: after ∧
    t.declaration.name ∉ after.map TypeDeclaration.name

namespace Resolve

variable {files : List SourceFile} {t : Declared}

theorem qualified_injective (ns : String) : Function.Injective fun name => ns ++ "." ++ name := by
  intro name name' h
  have hlists := congrArg String.toList h
  simp only [String.toList_append] at hlists
  exact String.toList_injective (List.append_cancel_left hlists)

theorem names_entries (f : SourceFile) : (entries f).names =
    (f.model.declarations.map TypeDeclaration.name).map fun name => f.model.ns ++ "." ++ name := by
  simp [entries, Table.names]

/-- The last declaration of a name is the one that is found in a file. -/
theorem mem_declared_of_isLast (h : t.IsLast) : (t.fqn, t) ∈ declared [t.source] := by
  obtain ⟨before, after, hdeclarations, hlast⟩ := h
  apply Table.mem_of_find
  let entry := fun d : TypeDeclaration =>
    (t.source.model.ns ++ "." ++ d.name, (⟨t.source, d⟩ : Declared))
  have hfound : Table.find? (Table.ofList (entries t.source)) t.fqn = some t := by
    refine Table.find_ofList.mpr ⟨before.map entry, after.map entry, ?_, ?_⟩
    · rw [entries, hdeclarations, List.map_append, List.map_cons]
      rfl
    · intro hmem
      have hnames : t.fqn ∈ (after.map TypeDeclaration.name).map
          fun name => t.source.model.ns ++ "." ++ name := by
        simpa [Table.names, entry] using hmem
      obtain ⟨name, hname, heq⟩ := List.mem_map.mp hnames
      exact hlast (qualified_injective _ heq ▸ hname)
  rwa [declared_eq, List.flatMap_singleton]

/-- **The last declarations of their names** are among the declarations of files. -/
theorem mem_declared_of_mem (hfiles : Apart files) (ht : t.source ∈ files) (h : t.IsLast) :
    (t.fqn, t) ∈ declared files := by
  rw [declared_eq_flatMap hfiles]
  exact List.mem_flatMap.mpr ⟨t.source, ht, mem_declared_of_isLast h⟩

/-- **Files in which no name is declared twice** declare what is written in them. -/
theorem declared_eq_entries (hfiles : Apart files)
    (hnodup : ∀ f ∈ files, (f.model.declarations.map TypeDeclaration.name).Nodup) :
    declared files = files.flatMap entries := by
  rw [declared_eq_flatMap hfiles]
  apply List.flatMap_congr
  intro f hf
  have hnames : (entries f).names.Nodup := by
    rw [names_entries]
    exact (hnodup f hf).map (qualified_injective f.model.ns)
  rw [declared_eq, List.flatMap_singleton]
  exact Table.ofList_eq_self hnames

end Resolve

namespace Catalog

open Resolve

variable {c d : Catalog} {files : List SourceFile}

/-! ### Runs of additions -/

/-- The files that are accepted when values are added one after another, as they are read. -/
def acceptedFiles : Catalog → List (Value × Option String) → List SourceFile
  | _, [] => []
  | c, v :: vs =>
    match c.add v.1 v.2 with
    | (.ok m, d) => ⟨m, v.2⟩ :: acceptedFiles d vs
    | (.error _, d) => acceptedFiles d vs

/-- **The files that were accepted on the way to a catalog**: its types are theirs, and it has no
other files, unless a declared type extends a primitive type. -/
structure Records (c : Catalog) (files : List SourceFile) : Prop where
  reached : c.Reached
  apart : Apart files
  types : resolve files = .ok c.types
  files : c.files = files ∨ Stuck c.files

/-- A new catalog has no other files. -/
theorem records_new (hc : c = {} ∨ c = system) : Records c c.files := by
  rcases hc with rfl | rfl
  · exact ⟨.empty, ⟨by simp, by simp⟩, rfl, .inl rfl⟩
  · exact ⟨.system, settled_system.apart, settled_system.types, .inl rfl⟩

/-- **An accepted file** is recorded. -/
theorem Records.add_ok (h : Records c files) {v : Value} {file : Option String} {m : ModelFile}
    (hadd : c.add v file = (.ok m, d)) : Records d (files ++ [⟨m, file⟩]) := by
  have hreached : d.Reached := by
    have hnext := h.reached.add v file
    rwa [hadd] at hnext
  have hfiles : c.files = files := by
    refine h.files.resolve_right fun hstuck => ?_
    obtain ⟨f, hf⟩ := (h.reached.add_of_stuck hstuck v file).1
    rw [hadd] at hf
    cases hf
  have hd : d.files = files ++ [⟨m, file⟩] ∧ resolve d.files = .ok d.types := by
    unfold Catalog.add at hadd
    split at hadd
    · cases hadd
    · rename_i m' hm
      rcases insert_cases h.reached.resolve_or_stuck m' file with
        ⟨types, hinsert, htypes⟩ | ⟨f, hinsert, -⟩ | ⟨f, hinsert, -⟩
      all_goals
        rw [hinsert] at hadd
        cases hadd
      exact ⟨by rw [hfiles], htypes⟩
  refine ⟨hreached, ?_, hd.1 ▸ hd.2, .inl hd.1⟩
  rw [← hd.1]
  exact hreached.apart

/-- **A refused file** is not recorded. -/
theorem Records.add_error (h : Records c files) {v : Value} {file : Option String} {f : Fault}
    (hadd : c.add v file = (.error f, d)) : Records d files := by
  have hreached : d.Reached := by
    have hnext := h.reached.add v file
    rwa [hadd] at hnext
  rcases h.reached.add_error hadd with ⟨rfl, -⟩ | ⟨m, -, rfl, -, hstuck⟩
  · exact h
  · exact ⟨hreached, h.apart, h.types, .inr hstuck⟩

/-- **A run of additions** records the files that it accepts. -/
theorem Records.addEach (h : Records c files) (vs : List (Value × Option String)) :
    Records (c.addEach vs) (files ++ c.acceptedFiles vs) := by
  induction vs generalizing c files with
  | nil =>
    rw [acceptedFiles, List.append_nil]
    exact h
  | cons v vs ih =>
    rw [acceptedFiles, Catalog.addEach, List.foldl_cons]
    rcases hadd : c.add v.1 v.2 with ⟨f | m, d⟩
    · exact ih (h.add_error hadd)
    · have hrest := ih (h.add_ok hadd)
      rw [List.append_assoc] at hrest
      exact hrest

/-! ### What is kept -/

/-- **A declaration is kept**: the type of its name is of its kind, is abstract if it is, has its
values, the supertype that it names, and behind inherited properties those that it declares. -/
def Keeps (c : Catalog) (files : List SourceFile) (t : Declared) : Prop :=
  ∃ d own, c.get t.fqn = .ok d ∧ OfDeclaration (declared files) t d own ∧
    d.properties = inherited c.types d ++ own

/-- A declaration that is found among those of the files is kept. -/
theorem Records.keeps_of_mem (h : Records c files) {t : Declared}
    (ht : (t.fqn, t) ∈ declared files) : c.Keeps files t := by
  have hlineal := lineal_of_resolve h.types
  have hname : t.fqn ∈ c.types.names := by
    rw [hlineal.names]
    exact List.mem_map.mpr ⟨_, ht, rfl⟩
  obtain ⟨⟨fqn, d⟩, he, rfl⟩ := List.mem_map.mp hname
  obtain ⟨t', own, ht', hof, hproperties⟩ := hlineal.properties _ he
  obtain rfl : t = t' :=
    (Prod.mk.inj (List.inj_on_of_nodup_map (nodup_declared files) ht ht' rfl)).2
  exact ⟨d, own, get_eq_ok_iff.mpr ((Table.find_eq_some_iff hlineal.nodup).mpr he), hof,
    hproperties⟩

/-- **The last declaration of a name** in an accepted file is kept. -/
theorem Records.keeps_of_isLast (h : Records c files) {t : Declared} (ht : t.source ∈ files)
    (hlast : t.IsLast) : c.Keeps files t :=
  h.keeps_of_mem (mem_declared_of_mem h.apart ht hlast)

/-- Kept declarations of different names have different types. -/
theorem Keeps.get_ne {t t' : Declared} (h : c.Keeps files t) (h' : c.Keeps files t')
    (hne : t.fqn ≠ t'.fqn) : c.get t.fqn ≠ c.get t'.fqn := by
  obtain ⟨d, own, hget, hof, -⟩ := h
  obtain ⟨d', own', hget', hof', -⟩ := h'
  intro hsame
  rw [hget, hget', Except.ok.injEq] at hsame
  apply hne
  exact hof.fqn.symm.trans ((congrArg SchemaType.fqn hsame).trans hof'.fqn)

/-- The declarations of files, each with its file. -/
def declarationsOf (files : List SourceFile) : List Declared :=
  files.flatMap fun f => f.model.declarations.map (⟨f, ·⟩)

theorem map_declarationsOf (files : List SourceFile) :
    (declarationsOf files).map (fun t => (t.fqn, t)) = files.flatMap entries := by
  rw [declarationsOf, List.map_flatMap]
  apply List.flatMap_congr
  intro f _
  rw [List.map_map]
  rfl

/-- **Nothing is lost**: every declaration of the files is kept, and no two of them have the same
type. -/
structure AllKept (c : Catalog) (files : List SourceFile) : Prop where
  kept : ∀ t ∈ declarationsOf files, c.Keeps files t
  distinct : (declarationsOf files).Pairwise fun t t' => c.get t.fqn ≠ c.get t'.fqn

/-- **Nothing is lost** just if no accepted file declares a name twice. -/
theorem Records.allKept_iff (h : Records c files) : c.AllKept files ↔
    ∀ f ∈ files, (f.model.declarations.map TypeDeclaration.name).Nodup := by
  constructor
  · rintro ⟨-, hdistinct⟩ f hf
    have hfile : (f.model.declarations.map (Declared.mk f)).Sublist (declarationsOf files) :=
      List.sublist_flatten_of_mem (List.mem_map_of_mem hf)
    rw [List.Nodup, List.pairwise_map]
    refine (List.pairwise_map.mp (hdistinct.sublist hfile)).imp ?_
    intro t t' hne hname
    apply hne
    rw [Declared.fqn, Declared.fqn, hname]
  · intro hnodup
    have hdeclared := declared_eq_entries h.apart hnodup
    have hkept : ∀ t ∈ declarationsOf files, c.Keeps files t := by
      intro t ht
      apply h.keeps_of_mem
      rw [hdeclared, ← map_declarationsOf]
      exact List.mem_map.mpr ⟨t, ht, rfl⟩
    refine ⟨hkept, ?_⟩
    have hnames := nodup_declared files
    rw [hdeclared, ← map_declarationsOf, Table.names, List.map_map] at hnames
    exact (List.pairwise_map.mp hnames).imp_of_mem fun ht ht' hne =>
      (hkept _ ht).get_ne (hkept _ ht') hne

/-- **The declarations of accepted files.** After any run of additions to a new catalog, with the
system types or without, the last declaration of each name in each accepted file is kept. Nothing
is lost just if no accepted file declares a name twice. -/
theorem declarations_kept (hc : c = {} ∨ c = system) (vs : List (Value × Option String)) :
    (∀ t : Declared, t.source ∈ c.files ++ c.acceptedFiles vs → t.IsLast →
        (c.addEach vs).Keeps (c.files ++ c.acceptedFiles vs) t) ∧
      ((c.addEach vs).AllKept (c.files ++ c.acceptedFiles vs) ↔
        ∀ f ∈ c.files ++ c.acceptedFiles vs,
          (f.model.declarations.map TypeDeclaration.name).Nodup) := by
  have hend := (records_new hc).addEach vs
  exact ⟨fun t ht hlast => hend.keeps_of_isLast ht hlast, hend.allKept_iff⟩

end Catalog

namespace Fleet

/-- **The declarations of vehicles and vans** are all kept; a model between them is refused. -/
theorem kept_run : Catalog.system.acceptedFiles run = [⟨vehicles, none⟩, ⟨vans, none⟩] ∧
    (Catalog.system.addEach run).AllKept (Catalog.system.files ++ Catalog.system.acceptedFiles run) :=
  ⟨by decide +kernel, (Catalog.declarations_kept (.inr rfl) run).2.mpr (by decide +kernel)⟩

end Fleet

/-! ### Notes that are declared twice -/

namespace Logbook

def note : TypeDeclaration where
  kind := .concept
  name := "Note"
  properties := [{ name := "text", type := "String" }]

def model : ModelFile where
  ns := "logbook"
  declarations := [note, { kind := .participant, name := "Note" }]

/-- **The first of two declarations is lost**: the model is accepted, and the type of notes is what
the second one says. -/
theorem not_kept : ¬ ∀ (c : Catalog) (vs : List (Value × Option String)),
    c = {} ∨ c = Catalog.system →
      (c.addEach vs).AllKept (c.files ++ c.acceptedFiles vs) := by
  intro h
  have haccepted : Catalog.system.acceptedFiles [(model.toValue, none)] = [⟨model, none⟩] := by
    decide +kernel
  have hkind : ((Catalog.system.addEach [(model.toValue, none)]).get "logbook.Note").toOption.map
      SchemaType.kind = some .participant := by
    decide +kernel
  have hmem : (⟨⟨model, none⟩, note⟩ : Declared) ∈ Catalog.declarationsOf
      (Catalog.system.files ++ Catalog.system.acceptedFiles [(model.toValue, none)]) := by
    rw [haccepted]
    simp [Catalog.declarationsOf, model]
  obtain ⟨d, own, hget, hof, -⟩ := (h Catalog.system [(model.toValue, none)] (.inr rfl)).kept _ hmem
  have hfound : (Catalog.system.addEach [(model.toValue, none)]).get "logbook.Note" = .ok d := hget
  rw [hfound] at hkind
  have hconcept : d.kind = .concept := hof.kind
  rw [Except.toOption, Option.map_some, hconcept] at hkind
  cases hkind

end Logbook

end Covenant
