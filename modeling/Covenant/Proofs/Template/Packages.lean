import Covenant.Proofs.Package.Files
import Covenant.Proofs.Template.Loads

/-!
Packages that are written and loaded again.

* `Template.written`: the files of a package in parts. `Template.files_eq` says that these
  are the files that are written.
* `Template.Loads.repacked`: a template that was loaded is loaded again from the files that
  are written of it, in the order of their paths.
* `Json.write_object_perm`: the canonical text of an object does not depend on the order of its
  entries, and so the digest of a template does not depend on the order of its samples.
-/

namespace Covenant

/-! ### Canonical text -/

namespace Json

theorem writeFields_eq_map (st : Style) (depth : Nat) (fields : List (String × Value)) :
    st.writeFields depth fields = fields.map fun e => (e.1, st.write depth e.2) := by
  induction fields with
  | nil => simp [Style.writeFields]
  | cons e fields ih => rw [Style.writeFields, ih, List.map_cons]

/-- Sorting by key forgets the order the fields came in. -/
theorem sortFields_eq_of_perm {fields fields' : List (String × String)}
    (h : (Table.names fields).Nodup) (hperm : fields.Perm fields') :
    sortFields fields = sortFields fields' :=
  Package.Files.sorted_eq_of_perm h hperm

/-- An object is written from its names and the texts of its values. -/
theorem write_object_congr {st : Style} {depth : Nat} {fields fields' : List (String × Value)}
    (h : fields.map (fun e => (e.1, st.write (depth + 1) e.2)) =
      fields'.map fun e => (e.1, st.write (depth + 1) e.2)) :
    st.write depth (.object fields) = st.write depth (.object fields') := by
  rw [Style.write, Style.write, writeFields_eq_map, writeFields_eq_map, h]

/-- **Sorted text** of an object does not depend on the order of its entries. -/
theorem write_object_perm {st : Style} (hst : st.sorted = true) {fields fields' : List (String × Value)}
    (h : (Table.names fields).Nodup) (hperm : fields.Perm fields') (depth : Nat) :
    st.write depth (.object fields) = st.write depth (.object fields') := by
  have hsorted : sortFields (st.writeFields (depth + 1) fields) =
      sortFields (st.writeFields (depth + 1) fields') := by
    rw [writeFields_eq_map, writeFields_eq_map]
    refine sortFields_eq_of_perm ?_ (hperm.map _)
    rwa [Table.names, List.map_map]
  rw [Style.write, Style.write, if_pos hst, if_pos hst, hsorted]

end Json

namespace Template

open Package Shape

/-! ### Models -/

/-- The models keep the paths of their files, sorted. -/
theorem names_of_modelsOf {files : Files} {models : List (String × Value)}
    (h : modelsOf files = .ok models) :
    models.map Prod.fst = (files.sorted.filter fun e => isModel e.1).map Prod.fst := by
  have hread := Outcome.mapM_eq_ok_iff.mp h
  clear h
  generalize (files.sorted.filter fun e => isModel e.1) = found at hread
  induction hread with
  | nil => rfl
  | cons hfirst _ ih =>
    obtain ⟨v, _, rfl⟩ := Outcome.map_eq_ok.mp hfirst
    rw [List.map_cons, List.map_cons, ih]

/-- Models are read back if their values are. -/
theorem modelsOf_eq_ok {files : Files} {models : List (String × Value)}
    (hfiles : (files.sorted.filter fun e => isModel e.1) = models.map fun e => (e.1, writeJson e.2))
    (hread : ∀ v ∈ models.map Prod.snd, Json.read (writeJson v) = .ok v) :
    modelsOf files = .ok models := by
  rw [modelsOf, hfiles, Outcome.mapM_eq_ok_iff, List.forall₂_map_left_iff, List.forall₂_same]
  intro e he
  dsimp only
  rw [readJson, hread e.2 (List.mem_map_of_mem he)]
  rfl

/-! ### Scripts -/

/-- A script is its file's path and contents, nothing else. -/
theorem scriptOf_eq_ok {file : String × String} {s : Script} (h : scriptOf? file = some (.ok s)) :
    file = (s.identifier, s.contents) := by
  obtain ⟨language, _, hmake⟩ := Option.map_eq_some_iff.mp h
  unfold Script.make at hmake
  split at hmake
  · cases hmake
  · cases hmake
    rfl

/-- The scripts among files are files, in their order. -/
theorem scripts_sublist {files : Files} {scripts : List Script}
    (h : (files.filterMap scriptOf?).mapM id = .ok scripts) :
    (∀ s ∈ scripts, scriptOf? (s.identifier, s.contents) = some (.ok s)) ∧
      (scripts.map fun s => (s.identifier, s.contents)).Sublist files := by
  induction files generalizing scripts with
  | nil =>
    cases h
    exact ⟨fun _ hs => (nomatch hs), .slnil⟩
  | cons file files ih =>
    rw [List.filterMap_cons] at h
    cases hfile : scriptOf? file with
    | none =>
      rw [hfile] at h
      exact (ih h).imp_right fun hrest => hrest.cons file
    | some o =>
      rw [hfile] at h
      obtain ⟨s, hs, rest, hrest, rfl⟩ := Outcome.mapM_cons_ok.mp h
      obtain rfl : o = .ok s := hs
      obtain rfl := scriptOf_eq_ok hfile
      exact ⟨List.forall_mem_cons.mpr ⟨hfile, (ih hrest).1⟩, (ih hrest).2.cons_cons _⟩

/-- Scripts are read back from files in order. -/
theorem scriptsOf_eq_ok {scripts : List Script}
    (hscripts : ∀ s ∈ scripts, scriptOf? (s.identifier, s.contents) = some (.ok s))
    (hsorted : scripts.Pairwise fun s t => s.identifier ≤ t.identifier) :
    scriptsOf (scripts.map fun s => (s.identifier, s.contents)) = .ok scripts := by
  have hfound : (scripts.map fun s => (s.identifier, s.contents)).filterMap scriptOf? =
      scripts.map .ok := by
    rw [List.filterMap_map]
    exact (List.filterMap_congr hscripts).trans (List.filterMap_eq_map ▸ rfl)
  rw [scriptsOf, Files.sorted_eq_self (List.pairwise_map.mpr hsorted), hfound,
    Outcome.mapM_eq_ok_iff, List.forall₂_map_left_iff, List.forall₂_same]
  exact fun _ _ => rfl

/-! ### What is written -/

/-- Whether the values of the JSON files that are written can be read back. -/
def SurvivesJson (t : Template) (includeLogic : Bool) : Prop :=
  ∀ v, v = (t.writtenInfo includeLogic none).toValue ∨ v ∈ t.metadata.request ∨
    v ∈ t.metadata.response ∨ v ∈ t.models.map Prod.snd → Json.read (writeJson v) = .ok v

def single (file : String) (text : Option String) : Files :=
  (text.map fun s => (file, s)).toList

def sampleFiles (t : Template) : Files :=
  t.metadata.samples.map fun e => (sampleFile e.1, e.2)

def modelFiles (t : Template) : Files :=
  t.models.map fun e => (e.1, writeJson e.2)

def scriptFiles (t : Template) (includeLogic : Bool) : Files :=
  if includeLogic then (t.scripts.getD []).map fun s => (s.identifier, s.contents) else []

/-- The files of a package in parts, with the marks of their paths. -/
def written (t : Template) (includeLogic : Bool) : List (List Char × Files) :=
  [(mark packageFile, single packageFile (some (writeJson (t.writtenInfo includeLogic none).toValue))),
    (mark readmeFile, single readmeFile t.metadata.readme),
    (mark "sample", t.sampleFiles),
    (mark requestFile, single requestFile (t.metadata.request.map writeJson)),
    (mark responseFile, single responseFile (t.metadata.response.map writeJson)),
    (mark "model", t.modelFiles),
    (mark t.settings.grammarFile, single t.settings.grammarFile t.markup),
    (mark "logic", t.scriptFiles includeLogic)]

theorem files_eq {t : Template} {includeLogic : Bool} (h : Parted (t.written includeLogic)) :
    t.files includeLogic = (t.written includeLogic).flatMap Prod.snd := by
  rw [← Table.ofList_eq_self h.nodup_names]
  simp [files, written, single, sampleFiles, modelFiles, scriptFiles, Function.comp_def]

theorem find_single (file : String) (text : Option String) :
    (single file text).find? file = text := by
  cases text <;> simp [single, Table.find?]

theorem nodup_single (file : String) (text : Option String) : (single file text).names.Nodup := by
  cases text <;> simp [single, Table.names]

/-! ### The parts of what was loaded -/

namespace Loads

variable {env : Environment} {files : Files} {t : Template}

/-- No locale of a loaded template has two samples. -/
theorem nodup_samples (h : Loads env files t) : t.metadata.samples.names.Nodup := by
  rw [h.samples]
  exact Table.nodup_names_foldl_put List.nodup_nil

/-- The locales of a loaded template's samples are well formed. -/
theorem isLocale (h : Loads env files t) {locale : String}
    (hlocale : locale ∈ t.metadata.samples.names) : isLocale locale = true :=
  (refuseSamples_eq_none_iff.mp h.accepted).2 locale hlocale

theorem nodup_sampleFiles (h : Loads env files t) : t.sampleFiles.names.Nodup := by
  rw [sampleFiles, Table.names, List.map_map]
  refine List.Nodup.map_on (f := fun e : String × String => sampleFile e.1) ?_
    (List.Nodup.of_map _ h.nodup_samples)
  intro e he e' he' hsame
  have hlocale := (sampleLocale_sampleFile (h.isLocale (List.mem_map_of_mem he))).symm.trans
    ((congrArg sampleLocale? hsame).trans
      (sampleLocale_sampleFile (h.isLocale (List.mem_map_of_mem he'))))
  exact List.inj_on_of_nodup_map h.nodup_samples he he' (Option.some.inj hlocale)

/-- The files the models are written to are model files. -/
theorem isModel (h : Loads env files t) {e : String × String} (he : e ∈ t.modelFiles) :
    isModel e.1 = true := by
  obtain ⟨model, hmodel, rfl⟩ := List.mem_map.mp he
  obtain ⟨file, hfile, hsame⟩ :=
    List.mem_map.mp (names_of_modelsOf h.models ▸ List.mem_map_of_mem hmodel)
  exact hsame ▸ (List.mem_filter.mp hfile).2

/-- The models are written to the files they were read from. -/
theorem names_modelFiles (h : Loads env files t) :
    t.modelFiles.names.Sublist files.sorted.names := by
  have hnames : t.modelFiles.names = t.models.map Prod.fst := by
    rw [modelFiles, Table.names, List.map_map]
    rfl
  rw [hnames, names_of_modelsOf h.models]
  exact List.filter_sublist.map Prod.fst

/-- The scripts are written to files they are read from again. -/
theorem scriptOf (h : Loads env files t) {s : Script} (hs : s ∈ t.scripts.getD []) :
    scriptOf? (s.identifier, s.contents) = some (.ok s) := by
  have hscripts := h.scripts
  unfold scriptsIn at hscripts
  split at hscripts
  · rw [← Except.ok.inj hscripts] at hs
    cases hs
  · obtain ⟨scripts, hscripts, hsome⟩ := Outcome.map_eq_ok.mp hscripts
    rw [← hsome] at hs
    exact (scripts_sublist hscripts).1 s hs

/-- The scripts written are among the files the template was loaded from. -/
theorem scriptFiles_sublist (h : Loads env files t) (includeLogic : Bool) :
    (t.scriptFiles includeLogic).Sublist
      (Files.sorted (files.filter fun e => isUnder "logic" e.1)) := by
  have hscripts := h.scripts
  unfold scriptsIn at hscripts
  unfold scriptFiles
  split at hscripts
  · rw [← Except.ok.inj hscripts]
    simp
  · obtain ⟨scripts, hscripts, hsome⟩ := Outcome.map_eq_ok.mp hscripts
    rw [← hsome]
    split
    · exact (scripts_sublist hscripts).2
    · exact List.nil_sublist _

theorem isUnder_logic (h : Loads env files t) {includeLogic : Bool} {e : String × String}
    (he : e ∈ t.scriptFiles includeLogic) : e ∈ files ∧ isUnder "logic" e.1 = true :=
  List.mem_filter.mp
    (Files.mem_sorted.mp ((h.scriptFiles_sublist includeLogic).subset he))

/-- **The files of what was loaded** are in parts. -/
theorem parted (h : Loads env files t) (hsettings : env.settings = {}) (hfiles : files.names.Nodup)
    (includeLogic : Bool) : Parted (t.written includeLogic) := by
  have hgrammar : t.settings.grammarFile = "text/grammar.tem.md" := by
    rw [settings, h.environment, hsettings]
  have hscripts : (t.scriptFiles includeLogic).names.Nodup := by
    refine ((h.scriptFiles_sublist includeLogic).map Prod.fst).nodup (Files.nodup_names_sorted ?_)
    exact hfiles.sublist (List.filter_sublist.map Prod.fst)
  constructor
  · rw [written, hgrammar]
    exact (by decide : [mark packageFile, mark readmeFile, mark "sample", mark requestFile,
      mark responseFile, mark "model", mark "text/grammar.tem.md", mark "logic"].Nodup)
  · have hsingle : ∀ (file : String) (text : Option String) (e : String × String),
        e ∈ single file text → mark e.1 = mark file := by
      intro file text e he
      obtain ⟨s, _, rfl⟩ := Option.map_eq_some_iff.mp (Option.mem_toList.mp he)
      rfl
    intro part hpart e he
    simp only [written, List.mem_cons, List.not_mem_nil, or_false] at hpart
    rcases hpart with rfl | rfl | rfl | rfl | rfl | rfl | rfl | rfl <;> dsimp only at he ⊢
    · exact hsingle _ _ e he
    · exact hsingle _ _ e he
    · obtain ⟨sample, _, rfl⟩ := List.mem_map.mp he
      exact mark_sampleFile sample.1
    · exact hsingle _ _ e he
    · exact hsingle _ _ e he
    · exact mark_of_isUnder (Bool.and_eq_true_iff.mp (h.isModel he)).1 (by decide)
    · exact hsingle _ _ e he
    · exact mark_of_isUnder (h.isUnder_logic he).2 (by decide)
  · simp only [written, List.forall_mem_cons]
    exact ⟨nodup_single _ _, nodup_single _ _, h.nodup_sampleFiles, nodup_single _ _,
      nodup_single _ _, h.names_modelFiles.nodup (Files.nodup_names_sorted hfiles),
      nodup_single _ _, hscripts, nofun⟩

end Loads

/-! ### Reading the files of what was loaded -/

section Written

variable {env : Environment} {files : Files} {t : Template} {includeLogic : Bool}

/-- With the parts at different places, each file is found in its part. -/
theorem find_written (hparted : Parted (t.written includeLogic)) {file : String}
    {text : Option String} (hpart : (mark file, single file text) ∈ t.written includeLogic) :
    (t.files includeLogic).find? file = text := by
  rw [files_eq hparted, hparted.find hpart rfl, find_single]

/-- The samples are read back, perhaps in another order. -/
theorem samples_perm (h : Loads env files t) (hparted : Parted (t.written includeLogic)) :
    (samplesOf (t.files includeLogic)).Perm t.metadata.samples := by
  let locale : String × String → Option (String × String) :=
    fun e => (sampleLocale? e.1).map fun l => (l, e.2)
  have hfound : (t.files includeLogic).filterMap locale = t.metadata.samples := by
    rw [files_eq hparted, hparted.filterMap
      (by simp [written] : (mark "sample", t.sampleFiles) ∈ t.written includeLogic)]
    · rw [sampleFiles, List.filterMap_map]
      refine (List.filterMap_congr fun e he => ?_).trans List.filterMap_some
      have hlocale := sampleLocale_sampleFile (h.isLocale (List.mem_map_of_mem he))
      simp [locale, hlocale]
    · intro e b he
      obtain ⟨l, hl, _⟩ := Option.map_eq_some_iff.mp he
      exact mark_of_sampleLocale hl
  have hperm : ((t.files includeLogic).sorted.filterMap locale).Perm t.metadata.samples :=
    hfound ▸ (Files.sorted_perm _).filterMap locale
  have hnodup := (Table.names_perm hperm).nodup_iff.mpr h.nodup_samples
  rw [samplesOf, Table.ofList_eq_self hnodup]
  exact hperm

/-- The samples of what was loaded have nothing wrong with them. -/
theorem checkSamples_files (h : Loads env files t) (hparted : Parted (t.written includeLogic)) :
    checkSamples (t.files includeLogic) = [] := by
  have hpart : (mark "sample", t.sampleFiles) ∈ t.written includeLogic := by simp [written]
  have hmem : ∀ e : String × String, mark e.1 = mark "sample" →
      (e ∈ t.files includeLogic ↔ e ∈ t.sampleFiles) := by
    intro e he
    rw [files_eq hparted]
    exact hparted.mem_iff hpart he
  rw [checkSamples_eq_nil_iff]
  constructor
  · obtain ⟨text, htext⟩ := Table.exists_find (refuseSamples_eq_none_iff.mp h.accepted).1
    refine ⟨sampleFile defaultLocale, List.mem_map.mpr ⟨(sampleFile defaultLocale, text), ?_, rfl⟩,
      by decide⟩
    exact (hmem _ (mark_sampleFile _)).mpr (List.mem_map.mpr ⟨_, Table.mem_of_find htext, rfl⟩)
  · intro path hpath locale hlocale
    obtain ⟨e, he, rfl⟩ := List.mem_map.mp hpath
    obtain ⟨sample, hsample, rfl⟩ := List.mem_map.mp ((hmem e (mark_of_sampleLocale hlocale)).mp he)
    have hvalid := h.isLocale (List.mem_map_of_mem hsample)
    rw [sampleLocale_sampleFile hvalid] at hlocale
    exact Option.some.inj hlocale ▸ hvalid

/-- The scripts of what was loaded have nothing wrong with them. -/
theorem checkLogic_files (h : Loads env files t) (hparted : Parted (t.written includeLogic)) :
    checkLogic (t.files includeLogic) (t.runtime.map Language.name) = [] := by
  have hpart : (mark "logic", t.scriptFiles includeLogic) ∈ t.written includeLogic := by
    simp [written]
  have hsound := checkLogic_eq_nil_iff.mp (errors_eq_nil_iff.mp h.sound).2.2
  rw [checkLogic_eq_nil_iff]
  intro path hpath hunder language hlanguage
  obtain ⟨e, he, rfl⟩ := List.mem_map.mp hpath
  rw [files_eq hparted, hparted.mem_iff hpart (mark_of_isUnder hunder (by decide))] at he
  exact hsound e.1 (List.mem_map_of_mem (h.isUnder_logic he).1) hunder language hlanguage

/-- The models are read back. -/
theorem models_files (h : Loads env files t) (hparted : Parted (t.written includeLogic))
    (hjson : t.SurvivesJson includeLogic) :
    modelsOf (t.files includeLogic) = .ok t.models := by
  have hpart : (mark "model", t.modelFiles) ∈ t.written includeLogic := by simp [written]
  have hkept : (t.files includeLogic).filter (fun e => isModel e.1) = t.modelFiles := by
    have hmark : ∀ e : String × String, isModel e.1 = true → mark e.1 = mark "model" :=
      fun e he => mark_of_isUnder (Bool.and_eq_true_iff.mp he).1 (by decide)
    rw [files_eq hparted, hparted.filter hpart hmark]
    exact List.filter_eq_self.mpr fun e he => h.isModel he
  have hsorted : t.modelFiles.Pairwise fun a b => a.1 ≤ b.1 :=
    List.pairwise_map.mp
      (.sublist h.names_modelFiles (List.pairwise_map.mpr files.pairwise_sorted))
  have hnodup : (t.files includeLogic).names.Nodup := by
    rw [files_eq hparted]
    exact hparted.nodup_names
  refine modelsOf_eq_ok ?_ fun v hv => hjson v (.inr (.inr (.inr hv)))
  rw [Files.filter_sorted hnodup, hkept, Files.sorted_eq_self hsorted]
  rfl

/-- The scripts are read back, if they were written. -/
theorem scripts_files (h : Loads env files t) (hparted : Parted (t.written includeLogic)) :
    scriptsIn (t.files includeLogic) (t.writtenInfo includeLogic none) =
      .ok (if includeLogic then t.scripts else none) := by
  cases includeLogic with
  | false => rfl
  | true =>
    cases hscripts : t.scripts with
    | none => simp [scriptsIn, writtenInfo, hscripts]
    | some scripts =>
      have hpart : (mark "logic", t.scriptFiles true) ∈ t.written true := by simp [written]
      have hkept : (t.files true).filter (fun e => isUnder "logic" e.1) = t.scriptFiles true := by
        have hmark : ∀ e : String × String, isUnder "logic" e.1 = true → mark e.1 = mark "logic" :=
          fun e he => mark_of_isUnder he (by decide)
        rw [files_eq hparted, hparted.filter hpart hmark]
        have hall : ∀ e ∈ t.scriptFiles true, isUnder "logic" e.1 = true :=
          fun e he => (h.isUnder_logic he).2
        exact List.filter_eq_self.mpr hall
      have hfiles : t.scriptFiles true = scripts.map fun s => (s.identifier, s.contents) := by
        simp [scriptFiles, hscripts]
      have hsorted : scripts.Pairwise fun s s' => s.identifier ≤ s'.identifier := by
        have hpaths := (Files.pairwise_sorted _).sublist (h.scriptFiles_sublist true)
        rw [hfiles] at hpaths
        rwa [List.pairwise_map] at hpaths
      have hread := scriptsOf_eq_ok (fun s hs => h.scriptOf (by simpa [hscripts] using hs)) hsorted
      rw [scriptsIn, hkept, hfiles, hread]
      simp [writtenInfo, hscripts, Except.map]

/-- A JSON file, if there is one, is read back. -/
theorem readJson_written {files' : Files} {file : String} {v : Option Value}
    (hfind : files'.find? file = v.map writeJson)
    (hjson : ∀ w ∈ v, Json.read (writeJson w) = .ok w) : readJson? files' file = .ok v := by
  rw [readJson?, hfind]
  cases v with
  | none => rfl
  | some w =>
    rw [Option.map_some]
    dsimp only
    rw [readJson, hjson w rfl]
    rfl

/-- The value of a JSON file is that of its text. -/
theorem readJson_congr {files' : Files} {file : String} (h : files'.find? file = files.find? file) :
    readJson? files' file = readJson? files file := by
  rw [readJson?, readJson?, h]

theorem holdsObject_written {files' : Files} {file : String} {v : Option Value}
    (h : HoldsObject files file v) (hread : readJson? files' file = .ok v) :
    HoldsObject files' file v := by
  obtain ⟨w, _, hobject, rfl⟩ := h
  exact ⟨present w, hread, maybeObject_present hobject, (present_present w).symm⟩

/-! ### Loading again -/

/-- The template that the files of a template hold. -/
def repacked (t : Template) (includeLogic : Bool) : Template :=
  { t with
    metadata := { t.metadata with
      info := t.writtenInfo includeLogic none
      samples := samplesOf (t.files includeLogic) }
    scripts := if includeLogic then t.scripts else none }

/-- **What was loaded is loaded again** from its files. -/
theorem Loads.repacked (h : Loads env files t) (hparted : Parted (t.written includeLogic))
    (hjson : t.SurvivesJson includeLogic) :
    Loads env (t.files includeLogic) (t.repacked includeLogic) := by
  have hvalid : (t.writtenInfo includeLogic none).Valid := by
    obtain ⟨hname, hversion, hkeywords⟩ := infoOf_eq_some h.info
    exact ⟨hname, hversion, hkeywords⟩
  have hpackage : (t.files includeLogic).find? packageFile =
      some (writeJson (t.writtenInfo includeLogic none).toValue) :=
    find_written hparted (by simp [written])
  have hreadme : (t.files includeLogic).find? readmeFile = t.metadata.readme :=
    find_written hparted (by simp [written])
  have hrequest : (t.files includeLogic).find? requestFile = t.metadata.request.map writeJson :=
    find_written hparted (by simp [written])
  have hresponse : (t.files includeLogic).find? responseFile = t.metadata.response.map writeJson :=
    find_written hparted (by simp [written])
  have hgrammar : (t.files includeLogic).find? t.settings.grammarFile = t.markup :=
    find_written hparted (by simp [written])
  have hread : readJson? (t.files includeLogic) packageFile =
      .ok (some (t.writtenInfo includeLogic none).toValue) := by
    refine readJson_written hpackage fun v hv => ?_
    exact hjson v (.inl (Option.some.inj hv).symm)
  have hinfo : infoOf (t.files includeLogic) = .ok (some (t.writtenInfo includeLogic none)) :=
    Outcome.bind_eq_ok.mpr ⟨_, hread, Outcome.bind_eq_ok.mpr
      ⟨_, ofChecked_eq_ok.mpr (Info.read_toValue hvalid), rfl⟩⟩
  have hsamples := samples_perm h hparted
  refine
    { environment := h.environment
      info := hinfo
      sound := errors_eq_nil_iff.mpr ⟨Table.mem_names_of_find hpackage,
        checkSamples_files h hparted, checkLogic_files h hparted⟩
      readme := hreadme.symm
      samples := rfl
      accepted := ?_
      request := holdsObject_written h.request
        (readJson_written hrequest fun v hv => hjson v (.inr (.inl hv)))
      response := holdsObject_written h.response
        (readJson_written hresponse fun v hv => hjson v (.inr (.inr (.inl hv))))
      models := models_files h hparted hjson
      catalog := h.catalog
      markup := ?_
      scripts := scripts_files h hparted
      registry := h.registry
      digest := h.digest }
  · have hnames := fun locale => (Table.names_perm hsamples).mem_iff (a := locale)
    obtain ⟨hdefault, hlocales⟩ := refuseSamples_eq_none_iff.mp h.accepted
    exact refuseSamples_eq_none_iff.mpr
      ⟨(hnames _).mpr hdefault, fun locale hl => hlocales locale ((hnames _).mp hl)⟩
  · rw [← h.environment]
    exact hgrammar.symm

/-- The package file of the repacked template is the one that was written. -/
theorem writtenInfo_repacked (t : Template) (includeLogic : Bool) :
    (t.repacked includeLogic).writtenInfo true none = t.writtenInfo includeLogic none := by
  cases includeLogic <;> cases hscripts : t.scripts <;>
    simp [writtenInfo, repacked, runtime, hscripts]

/-- **The same files are written** of what is loaded again. -/
theorem files_repacked (h : Loads env files t) (hparted : Parted (t.written includeLogic))
    (hparted' : Parted ((t.repacked includeLogic).written true)) :
    ((t.repacked includeLogic).files).Perm (t.files includeLogic) := by
  have hscripts : (t.repacked includeLogic).scriptFiles true = t.scriptFiles includeLogic := by
    cases includeLogic <;> rfl
  have hsamples : (t.repacked includeLogic).sampleFiles.Perm t.sampleFiles :=
    (samples_perm h hparted).map _
  rw [files_eq hparted, files_eq hparted']
  simp only [written, writtenInfo_repacked, hscripts, List.flatMap_cons, List.flatMap_nil]
  exact .append_left _ (.append_left _ (.append_right _ hsamples))

/-- Repacking with the logic keeps the identity hash. -/
theorem contentDigest_repacked (h : Loads env files t) (hparted : Parted (t.written true)) :
    (t.repacked true).contentDigest = t.contentDigest := by
  let st : Json.Style := { itemSeparator := ",", keySeparator := ":", ascii := false, sorted := true }
  have hsamples : ∀ depth, st.write depth (samplesValue (samplesOf (t.files true))) =
      st.write depth (samplesValue t.metadata.samples) := by
    refine Json.write_object_perm rfl ?_ ((samples_perm h hparted).map _)
    rw [Table.names, List.map_map]
    exact (Table.names_perm (samples_perm h hparted)).nodup_iff.mpr h.nodup_samples
  have hmetadata : ∀ depth, st.write depth (t.repacked true).metadata.contents =
      st.write depth t.metadata.contents := by
    intro depth
    refine Json.write_object_congr ?_
    simp only [repacked, writtenInfo, runtime, Option.none_or, List.map_cons, hsamples]
  refine congrArg Digest.ofString (Json.write_object_congr ?_)
  exact congrArg (fun text => [_, _, _, _, ("metadata", text)]) (hmetadata 1)

end Written

/-! ### The round trip -/

/-- A template without a stored hash computes it from its contents. -/
theorem run_hash {t : Template} (h : t.digest = none) (session : Session) :
    (hash.run t session).1 = .ok t.contentDigest := by
  obtain ⟨env, metadata, models, markup, scripts, catalog, registry, digest⟩ := t
  obtain rfl : digest = none := h
  rfl

/-- **Packages survive being written.** Under the default settings, a template that was loaded
from files is loaded again from the files that are written of it, if the values of its JSON
files can be read back. Of what is loaded again, the same files are written; it has the same
name and version, samples, readme, request, response, models, markup and keywords. If the
scripts were written, it has them and the same digest; otherwise it has none. -/
theorem ofFiles_files {σ τ : Type} {env : Environment} (hsettings : env.settings = {})
    {files : Files} (hfiles : files.names.Nodup) {t : Template} {state : σ} {session : Session}
    (hload : ((ofFiles env files).run state session).1 = .ok t) (includeLogic : Bool)
    (hjson : t.SurvivesJson includeLogic) (state' : τ) (session' : Session) :
    ∃ t' s, (ofFiles env (t.files includeLogic)).run state' session' = (.ok t', state', s) ∧
      t'.files.Perm (t.files includeLogic) ∧ (t.files includeLogic).names.Nodup ∧
      t'.identifier = t.identifier ∧ t'.metadata.samples.Perm t.metadata.samples ∧
      t'.metadata.readme = t.metadata.readme ∧ t'.metadata.request = t.metadata.request ∧
      t'.metadata.response = t.metadata.response ∧ t'.models = t.models ∧ t'.markup = t.markup ∧
      t'.metadata.info.keywords = t.metadata.info.keywords ∧
      (includeLogic = true → t'.scripts = t.scripts ∧
        ∀ s s', (hash.run t' s).1 = (hash.run t s').1) ∧
      (includeLogic = false → t'.scripts = none) := by
  have h := run_ofFiles_iff.mp hload
  have hparted := h.parted hsettings hfiles includeLogic
  have hnodup : (t.files includeLogic).names.Nodup := by
    rw [files_eq hparted]
    exact hparted.nodup_names
  have hagain := h.repacked hparted hjson
  obtain ⟨s, hrun⟩ := hagain.run state' session'
  refine ⟨t.repacked includeLogic, s, hrun,
    files_repacked h hparted (hagain.parted hsettings hnodup true), hnodup, rfl,
    samples_perm h hparted, rfl, rfl, rfl, rfl, rfl, rfl, ?_, ?_⟩
  · rintro rfl
    refine ⟨rfl, fun s s' => ?_⟩
    rw [run_hash hagain.digest, run_hash h.digest, contentDigest_repacked h hparted]
  · rintro rfl
    rfl

end Template

/-- A reading checked by the Boolean comparison is the reading. -/
theorem Json.read_of_identical {text : String} {v : Value}
    (h : (Json.read text).toOption.any v.identical = true) : Json.read text = .ok v := by
  obtain ⟨w, hw, hsame⟩ := Outcome.exists_of_any h
  rw [hw, Value.eq_of_identical hsame]

/-! ### A package of leases -/

namespace Lease

open Package Template

/-- The settings, and numbers as identifiers. -/
def environment : Environment where
  identifier := toString

def model : Value :=
  .object [("namespace", .text "lease"), ("declarations", .list
    [.object [("kind", .text "concept"), ("name", .text "Lease")]])]

def info : Info where
  name := "lease"
  version := "1.0.0"
  keywords := [.text "rent"]
  profile := { runtime := some .ergo }

def request : Value :=
  .object [("rent", .int 3)]

def script : Script :=
  ⟨"logic/rent.ergo", .ergo, "contract Rent"⟩

/-- The files of the package, in the order of their paths. -/
def files : Files :=
  [("README.md", "Leases"), (script.identifier, script.contents),
    ("model/lease.json", writeJson model), ("package.json", writeJson info.toValue),
    ("request.json", writeJson request), ("sample_default.txt", "Rent: 3"),
    ("sample_fr.txt", "Loyer: 3"), ("text/grammar.tem.md", "Rent: \x7b\x7brent\x7d\x7d")]

def template : Template where
  environment := environment
  metadata := { info, readme := some "Leases", request := some request
                samples := [("default", "Rent: 3"), ("fr", "Loyer: 3")] }
  models := [("model/lease.json", model)]
  markup := some "Rent: \x7b\x7brent\x7d\x7d"
  scripts := some [script]
  catalog := (Catalog.system.add model (some "model/lease.json")).2

theorem survivesJson : template.SurvivesJson true := by
  rintro v (rfl | hv | hv | hv)
  · exact Json.read_of_identical (by decide +kernel)
  · obtain rfl : request = v := Option.some.inj hv
    exact Json.read_of_identical (by decide +kernel)
  · cases hv
  · obtain rfl : v = model := by simpa [template] using hv
    exact Json.read_of_identical (by decide +kernel)

theorem sorted_files : files.sorted = files :=
  Files.sorted_eq_self (by decide +kernel)

theorem added_model : added .system template.models = .ok template.catalog := by
  have htest : ((Catalog.system.add model (some "model/lease.json")).1.toOption.any fun _ => true)
      = true := by
    decide +kernel
  obtain ⟨m, hm, _⟩ := Outcome.exists_of_any htest
  exact Outcome.bind_eq_ok.mpr ⟨m, hm, rfl⟩

theorem scripts_files : scriptsIn files info = .ok (some [script]) := by
  have hlogic : files.filter (fun e => isUnder "logic" e.1) =
      [script].map fun s => (s.identifier, s.contents) := by
    decide +kernel
  have hscripts := @scriptsOf_eq_ok [script] (List.forall_mem_singleton.mpr (by cbv))
    (List.pairwise_singleton _ _)
  rw [scriptsIn, if_neg (by decide), hlogic, hscripts]
  rfl

theorem loads_files : Loads environment files template := by
  have hread : ∀ {v}, v = info.toValue ∨ v = request ∨ v = model →
      Json.read (writeJson v) = .ok v := by
    rintro v (rfl | rfl | rfl)
    · exact survivesJson _ (.inl rfl)
    · exact survivesJson _ (.inr (.inl rfl))
    · exact survivesJson _ (.inr (.inr (.inr (List.mem_singleton_self _))))
  have hfile : ∀ {file v}, files.find? file = some (writeJson v) →
      (v = info.toValue ∨ v = request ∨ v = model) → readJson? files file = .ok (some v) :=
    fun {_ v} hfind hv => readJson_written (v := some v) hfind fun _ hw =>
      Option.some.inj hw ▸ hread hv
  have hvalid : info.Valid := ⟨by decide +kernel, by decide +kernel, ["rent"], rfl⟩
  refine
    { environment := rfl
      info := Outcome.bind_eq_ok.mpr ⟨_, hfile (by decide +kernel) (.inl rfl),
        Outcome.bind_eq_ok.mpr ⟨info, ofChecked_eq_ok.mpr (Info.read_toValue hvalid), rfl⟩⟩
      sound := ?_
      readme := by decide +kernel
      samples := ?_
      accepted := by decide +kernel
      request := ⟨some request, hfile (by decide +kernel) (.inr (.inl rfl)),
        fun w hw => .inr (Option.some.inj hw ▸ rfl), rfl⟩
      response := ⟨none, readJson_written (v := none) (by decide +kernel) nofun, nofun, rfl⟩
      models := modelsOf_eq_ok ?_ fun v hv => hread (.inr (.inr (List.mem_singleton.mp hv)))
      catalog := added_model
      markup := by decide +kernel
      scripts := scripts_files
      registry := rfl
      digest := rfl }
  · simp only [errors, checkSamples, checkLogic, paths, sorted_files]
    decide +kernel
  · rw [samplesOf, sorted_files]
    decide +kernel
  · rw [sorted_files]
    decide +kernel

/-- The template of leases is loaded again from the files that are written of it. -/
theorem repacked_lease : ∃ t s,
    (ofFiles environment (template.files true)).run () {} = (.ok t, (), s) ∧
      t.files.Perm (template.files true) ∧ t.scripts = template.scripts := by
  have hload : ((ofFiles environment files).run () {}).1 = .ok template :=
    run_ofFiles_iff.mpr loads_files
  obtain ⟨t, s, hrun, hfiles, _, _, _, _, _, _, _, _, _, hscripts, _⟩ :=
    @ofFiles_files Unit Unit environment rfl files (by decide +kernel) template () {} hload true
      survivesJson () {}
  exact ⟨t, s, hrun, hfiles, (hscripts rfl).1⟩

end Lease

end Covenant
