import Covenant.Proofs.Document.Lines
import Covenant.Proofs.Package.Identity
import Covenant.Proofs.Template.Packages
import Covenant.Proofs.Value.Newlines

/-!
Where packages come from.

* `Template.loaded_perm`: the order of files does not matter to what is loaded.
* `Template.loaded_fromDirectory`: hidden files and installed packages do not matter either,
  unless the settings take the markup from one of them, nor do the ends of lines, but for those in
  the readme, the samples, the markup and the scripts.
* `Template.yields_ofArchive`, `Template.yields_ofDirectory`: what archives and directories give.
* `Template.sources_spec`: what is loaded from a directory, and when it is the same as what is
  loaded from an archive of the same files.
-/

namespace Covenant

namespace Text

/-! ### Ends of lines -/

def lined (s : String) : String :=
  String.ofList (universalNewlines s.toList)

/-- A text stays as it is iff there are no carriage returns in it. -/
theorem lined_eq_self_iff {s : String} : lined s = s ↔ '\r' ∉ s.toList := by
  constructor
  · intro h hmem
    rw [← h, lined, String.toList_ofList] at hmem
    exact Document.not_mem_universalNewlines _ hmem
  · intro h
    rw [lined, Document.universalNewlines_of_not_mem h, String.ofList_toList]

theorem lined_isEmpty (s : String) : (lined s).isEmpty = s.isEmpty := by
  have hnil := (sameLines_universalNewlines s.toList).nil_iff
  rw [Bool.eq_iff_iff, String.isEmpty_iff, String.isEmpty_iff, ← String.toList_eq_nil_iff,
    ← String.toList_eq_nil_iff, lined, String.toList_ofList, hnil]

end Text

namespace Package.Files

/-! ### Files with other ends of lines -/

/-- Files with line feeds at the ends of their lines. -/
def lined (files : Files) : Files :=
  Table.mapValues Text.lined files

variable (files : Files)

/-- Translating line ends touches no path. -/
@[simp] theorem names_lined : files.lined.names = files.names :=
  Table.names_mapValues _ _

/-- Sorting by path and translating line ends do not interfere. -/
theorem sorted_lined : files.lined.sorted = files.sorted.lined := by
  refine (List.map_mergeSort ?_).symm
  exact fun _ _ _ _ => rfl

theorem filter_lined (p : String → Bool) :
    files.lined.filter (fun e => p e.1) = lined (files.filter fun e => p e.1) :=
  Table.filter_mapValues _ _ _

/-- The content found under a path is the translated one. -/
theorem find_lined (file : String) : files.lined.find? file = (files.find? file).map Text.lined :=
  Table.find_mapValues _ _ _

theorem has_eq_decide (file : String) : files.has file = decide (file ∈ files.names) := by
  rw [Bool.eq_iff_iff, Table.has_iff, decide_eq_true_iff]

end Package.Files

namespace Template

open Package Shape

/-! ### The order of files -/

section Order

variable {env : Environment} {files files' : Files}

/-- The package file is found by its path, so the order of the entries does not matter. -/
theorem infoOf_perm (h : files.names.Nodup) (hperm : files.Perm files') :
    infoOf files = infoOf files' := by
  rw [infoOf, infoOf, readJson?, readJson?, Table.find_perm h hperm]

/-- The faults of a package are the same in every order of its files. -/
theorem errors_perm (h : files.names.Nodup) (hperm : files.Perm files') (runtime : Option String) :
    Package.errors files runtime = Package.errors files' runtime := by
  rw [Package.errors, Package.errors, checkSamples, checkSamples, checkLogic, checkLogic, paths, paths,
    Files.sorted_eq_of_perm h hperm, Table.has_perm hperm]

/-- The parts of a template are the same in every order of its files. -/
theorem partsOf_perm (h : files.names.Nodup) (hperm : files.Perm files') (info : Info) :
    partsOf env files info = partsOf env files' info := by
  have hlogic : scriptsOf (files.filter fun e => isUnder "logic" e.1) =
      scriptsOf (files'.filter fun e => isUnder "logic" e.1) := by
    rw [scriptsOf, scriptsOf, ← Files.filter_sorted h, Files.sorted_eq_of_perm h hperm,
      Files.filter_sorted ((Table.names_perm hperm).nodup_iff.mp h)]
  have hfind := Table.find_perm h hperm
  simp only [partsOf, modelsOf, samplesOf, readJson?, hfind, hlogic,
    Files.sorted_eq_of_perm h hperm]

/-- **The order of files** does not matter to what is loaded. -/
theorem loaded_perm (h : files.names.Nodup) (hperm : files.Perm files') :
    loaded env files = loaded env files' := by
  simp only [loaded, infoOf_perm h hperm, errors_perm h hperm, partsOf_perm h hperm]

end Order

/-! ### Files that are loaded alike -/

/-- What is loaded from files depends on their description, on what is wrong with them, and on
the template of their parts. -/
theorem loaded_map {env : Environment} {files files' : Files} {F : Template → Template}
    (hinfo : infoOf files' = infoOf files)
    (herrors : ∀ runtime, Package.errors files' runtime = Package.errors files runtime)
    (hparts : ∀ info, (partsOf env files' info >>= assembled env) =
      (partsOf env files info >>= assembled env).map F) :
    loaded env files' = (loaded env files).map F := by
  rw [loaded, loaded, hinfo]
  cases infoOf files with
  | error f => rfl
  | ok info? =>
    simp only [bind, Except.bind, herrors]
    cases Package.errors files _ with
    | cons f found => rfl
    | nil =>
      cases info? with
      | none => rfl
      | some info => exact hparts info

/-! ### The ends of lines -/

section Lined

variable (files : Files) (info : Info)

/-- The ends of lines do not matter to a JSON file. -/
theorem readJson_lined (file text : String) : readJson file (Text.lined text) = readJson file text := by
  have hread := Json.read_universalNewlines text
  rw [readJson, readJson, Text.lined]
  cases hlined : Json.read (String.ofList (Text.universalNewlines text.toList)) <;>
    cases hraw : Json.read text <;> rw [hlined, hraw] at hread
  · have hissue := Except.error.inj hread
    dsimp only at hissue ⊢
    rw [hissue]
  · cases hread
  · cases hread
  · cases hread
    rfl

/-- JSON text reads the same with its line ends translated: a carriage return is blank there. -/
theorem readJson?_lined (file : String) : readJson? files.lined file = readJson? files file := by
  rw [readJson?, readJson?, Files.find_lined]
  cases files.find? file with
  | none => rfl
  | some text => simp only [Option.map_some, readJson_lined]

/-- The package metadata does not depend on line ends. -/
theorem infoOf_lined : infoOf files.lined = infoOf files := by
  rw [infoOf, infoOf, readJson?_lined]

/-- The faults of a package do not depend on line ends. -/
theorem errors_lined (runtime : Option String) :
    Package.errors files.lined runtime = Package.errors files runtime := by
  have hpaths : paths files.lined = paths files := by
    rw [paths, paths, Files.sorted_lined, Files.names_lined]
  rw [Package.errors, Package.errors, checkSamples, checkSamples, checkLogic, checkLogic, hpaths,
    Files.has_eq_decide, Files.has_eq_decide, Files.names_lined]

/-- The models of a package do not depend on line ends. -/
theorem modelsOf_lined : modelsOf files.lined = modelsOf files := by
  rw [modelsOf, modelsOf, Files.sorted_lined, Files.filter_lined, Files.lined, Table.mapValues,
    List.mapM_map]
  simp only [Function.comp_def, readJson_lined]

/-- The samples are texts: they are translated as they stand. -/
theorem samplesOf_lined : samplesOf files.lined = Files.lined (samplesOf files) := by
  rw [samplesOf, samplesOf, Files.sorted_lined, Files.lined, Files.lined, ← Table.ofList_mapValues,
    Table.mapValues, Table.mapValues, List.filterMap_map, List.map_filterMap]
  simp only [Function.comp_def, Option.map_map]

/-- A script with line feeds at the ends of its lines. -/
def linedScript (s : Script) : Script :=
  { s with contents := Text.lined s.contents }

theorem scriptOf_lined (file : String × String) :
    scriptOf? (file.1, Text.lined file.2) = (scriptOf? file).map (Except.map linedScript) := by
  rw [scriptOf?, scriptOf?, Option.map_map]
  refine Option.map_congr fun language _ => ?_
  rw [Function.comp_apply, Script.make, Script.make, Text.lined_isEmpty]
  split <;> rfl

/-- The scripts keep their names; their contents are translated. -/
theorem scriptsOf_lined : scriptsOf files.lined = (scriptsOf files).map (List.map linedScript) := by
  rw [scriptsOf, scriptsOf, Files.sorted_lined]
  generalize files.sorted = sorted
  induction sorted with
  | nil => rfl
  | cons file sorted ih =>
    rw [Files.lined, Table.mapValues] at ih ⊢
    rw [List.map_cons, List.filterMap_cons, List.filterMap_cons, scriptOf_lined]
    cases scriptOf? file with
    | none => exact ih
    | some o =>
      rw [Option.map_some]
      simp only [List.mapM_cons, ih]
      cases o with
      | error f => rfl
      | ok s => cases (sorted.filterMap scriptOf?).mapM id <;> rfl

theorem scriptsIn_lined :
    scriptsIn files.lined info = (scriptsIn files info).map (Option.map (List.map linedScript)) := by
  rw [scriptsIn, scriptsIn]
  split
  · rfl
  · rw [Files.filter_lined, scriptsOf_lined]
    cases scriptsOf (files.filter fun e => isUnder "logic" e.1) <;> rfl

/-- The metadata of a package with line feeds at the ends of its lines. -/
def linedMetadata (m : Metadata) : Metadata :=
  { m with readme := m.readme.map Text.lined, samples := Files.lined m.samples }

/-- Sample texts pass through the serialized form with their line ends translated. -/
theorem readSamples_lined (samples : Table String) :
    readSamples (samplesValue (Files.lined samples)) =
      (readSamples (samplesValue samples)).map Files.lined := by
  have hrefuse : refuseSamples (Files.lined samples) = refuseSamples samples := by
    rw [refuseSamples, refuseSamples, Files.has_eq_decide, Files.has_eq_decide, Files.names_lined]
  rw [readSamples, readSamples, samplesValue, samplesValue, entries_text, entries_text]
  simp only [Checked.refuse, Except.bind, hrefuse]
  cases refuseSamples samples <;> rfl

/-- The ends of lines matter to no check of the metadata. -/
theorem read_lined (package request response : Value) (readme : Option String)
    (samples : Table String) :
    Metadata.read (Metadata.partsValue package (.ofText? (readme.map Text.lined))
        (samplesValue (Files.lined samples)) request response) =
      (Metadata.read (Metadata.partsValue package (.ofText? readme) (samplesValue samples) request
        response)).map linedMetadata := by
  rw [Metadata.read_partsValue, Metadata.read_partsValue, orNull_text, orNull_text, readSamples_lined]
  cases Info.read package <;> cases readSamples (samplesValue samples) <;>
    cases orNull dictionary request <;> cases orNull dictionary response <;> rfl

end Lined

/-! ### Files that are left out -/

section Visible

/-- What a directory listing leaves out is under a hidden path or under the installed modules. -/
theorem mark_of_isIgnored {path : String} (h : isIgnored path = true) :
    (mark path).head? = some '.' ∨ mark path = mark "node_modules" := by
  rw [isIgnored, Bool.or_eq_true, decide_eq_true_iff] at h
  refine h.imp (fun hpoint => ?_) fun hunder => mark_of_isUnder hunder (by decide)
  rw [mark, List.head?_take]
  simpa using hpoint

/-- A path whose first part is neither hidden nor the modules' is not left out. -/
theorem isIgnored_eq_false {path name : String} (h : mark path = mark name)
    (hpoint : (mark name).head? ≠ some '.') (hmodules : mark name ≠ mark "node_modules") :
    isIgnored path = false := by
  rw [← Bool.not_eq_true]
  intro hignored
  exact (mark_of_isIgnored hignored).elim (fun hp => hpoint (h ▸ hp)) fun hm => hmodules (h ▸ hm)

/-- The files of a directory that are not left out. -/
def visible (files : Files) : Files :=
  files.filter fun e => !isIgnored e.1

variable {env : Environment} {files : Files} {info : Info}

/-- A path that is not left out has the same content in the visible files. -/
theorem find_visible {file : String} (h : isIgnored file = false) :
    (visible files).find? file = files.find? file := by
  rw [visible, Table.find_filter files (fun path => !isIgnored path), if_pos (by simp [h])]

theorem sorted_visible (h : files.names.Nodup) : (visible files).sorted = visible files.sorted :=
  (Files.filter_sorted h _).symm

/-- Files of which none is left out are the same among those that are not. -/
theorem filter_visible {p : String → Bool} (hp : ∀ path, p path = true → isIgnored path = false) :
    (visible files).filter (fun e => p e.1) = files.filter fun e => p e.1 := by
  rw [visible, List.filter_filter]
  refine List.filter_congr fun e _ => ?_
  cases hpath : p e.1
  · rfl
  · simp [hp e.1 hpath]

/-- Leaving out files changes no selection of paths that are never left out. -/
theorem paths_visible (h : files.names.Nodup) {p : String → Bool}
    (hp : ∀ path, p path = true → isIgnored path = false) :
    (paths (visible files)).filter p = (paths files).filter p := by
  have hkept := congrArg (List.map Prod.fst) (@filter_visible files.sorted p hp)
  rw [paths, paths, Table.names, Table.names, List.filter_map, List.filter_map, sorted_visible h]
  exact hkept

/-- Samples are never left out of a directory's listing. -/
theorem isIgnored_of_sample {path : String} (h : (sampleLocale? path).isSome = true) :
    isIgnored path = false := by
  obtain ⟨locale, hlocale⟩ := Option.isSome_iff_exists.mp h
  exact isIgnored_eq_false (mark_of_sampleLocale hlocale) (by decide) (by decide)

/-- Scripts are never left out of a directory's listing. -/
theorem isIgnored_of_logic {path : String} (h : isUnder "logic" path = true) :
    isIgnored path = false :=
  isIgnored_eq_false (mark_of_isUnder h (by decide)) (by decide) (by decide)

/-- Models are never left out of a directory's listing. -/
theorem isIgnored_of_model {path : String} (h : Package.isModel path = true) :
    isIgnored path = false :=
  isIgnored_eq_false (mark_of_isUnder (Bool.and_eq_true_iff.mp h).1 (by decide)) (by decide) (by decide)

theorem readJson?_visible {file : String} (h : isIgnored file = false) :
    readJson? (visible files) file = readJson? files file := by
  rw [readJson?, readJson?, find_visible h]

/-- The package metadata is that of all files. -/
theorem infoOf_visible : infoOf (visible files) = infoOf files := by
  rw [infoOf, infoOf, readJson?_visible (by decide)]

/-- The faults of a package are those of all files. -/
theorem errors_visible (h : files.names.Nodup) (runtime : Option String) :
    Package.errors (visible files) runtime = Package.errors files runtime := by
  have hpackage : (visible files).has packageFile = files.has packageFile := by
    have hfind := @find_visible files packageFile (by decide)
    rw [Files.has_eq_decide, Files.has_eq_decide, decide_eq_decide, ← not_iff_not,
      ← Table.find_eq_none_iff, ← Table.find_eq_none_iff, hfind]
  rw [Package.errors, Package.errors, checkSamples, checkSamples, checkLogic, checkLogic, hpackage,
    paths_visible h fun _ => isIgnored_of_sample, paths_visible h fun _ => isIgnored_of_logic]

/-- The models are those of all files. -/
theorem modelsOf_visible (h : files.names.Nodup) : modelsOf (visible files) = modelsOf files := by
  rw [modelsOf, modelsOf, sorted_visible h, filter_visible fun _ => isIgnored_of_model]

/-- The samples are those of all files. -/
theorem samplesOf_visible (h : files.names.Nodup) : samplesOf (visible files) = samplesOf files := by
  rw [samplesOf, samplesOf, sorted_visible h, visible, List.filterMap_filter]
  refine congrArg Table.ofList (List.filterMap_congr fun e _ => ?_)
  cases hlocale : sampleLocale? e.1 with
  | none => simp
  | some locale => simp [isIgnored_of_sample (Option.isSome_iff_exists.mpr ⟨locale, hlocale⟩)]

/-- The scripts are those of all files. -/
theorem scriptsIn_visible : scriptsIn (visible files) info = scriptsIn files info := by
  rw [scriptsIn, scriptsIn, filter_visible fun _ => isIgnored_of_logic]

end Visible

/-! ### Directories -/

/-- What a directory makes of a template: there are line feeds at the ends of its lines, and the
markup is missing if its file is left out. -/
def fromDirectory (t : Template) : Template :=
  { t with
    metadata := linedMetadata t.metadata
    markup := if isIgnored t.settings.grammarFile then none else t.markup.map Text.lined
    scripts := t.scripts.map (List.map linedScript) }

/-- A template assembled from translated parts is the directory's reading of the template assembled
from the parts as they are. -/
theorem assembled_fromDirectory (env : Environment) (package request response : Value)
    (readme markup : Option String) (samples : Table String) (models : List (String × Value))
    (scripts : Option (List Script)) :
    assembled env
        { package, readme := .ofText? (readme.map Text.lined)
          samples := samplesValue (Files.lined samples), request, response, models
          markup := (if isIgnored env.settings.grammarFile then none else markup).map Text.lined
          scripts := scripts.map (List.map linedScript) } =
      (assembled env { package, readme := .ofText? readme, samples := samplesValue samples, request
                       response, models, markup, scripts }).map fromDirectory := by
  have hmarkup : (if isIgnored env.settings.grammarFile then none else markup).map Text.lined =
      if isIgnored env.settings.grammarFile then none else markup.map Text.lined := by
    split <;> rfl
  have hscripts : ∀ omitted : Bool, (if omitted then scripts.map (List.map linedScript)
        else some ((scripts.map (List.map linedScript)).getD [])) =
      (if omitted then scripts else some (scripts.getD [])).map (List.map linedScript) := by
    rintro (_ | _) <;> cases scripts <;> rfl
  rw [assembled, assembled, read_lined, hmarkup]
  cases Metadata.read (Metadata.partsValue package (.ofText? readme) (samplesValue samples) request
      response) with
  | error found => rfl
  | ok metadata =>
    simp only [ofChecked, Except.map, Except.mapError, bind, Except.bind]
    cases added .system models with
    | error f => rfl
    | ok catalog =>
      rw [hscripts]
      rfl

/-- **What is loaded from the files of a directory** is what is loaded from all of the files as
they are, but for the ends of lines and for markup in a file that is left out. -/
theorem loaded_fromDirectory {env : Environment} {files : Files} (h : files.names.Nodup) :
    loaded env (visible files).lined = (loaded env files).map fromDirectory := by
  refine loaded_map ?_ (fun runtime => ?_) fun info => ?_
  · rw [infoOf_lined, infoOf_visible]
  · rw [errors_lined, errors_visible h]
  have hmarkup : (visible files).find? env.settings.grammarFile =
      if isIgnored env.settings.grammarFile then none else files.find? env.settings.grammarFile := by
    rw [visible, Table.find_filter files fun path => !isIgnored path]
    cases isIgnored env.settings.grammarFile <;> rfl
  rw [partsOf_eq, partsOf_eq, modelsOf_lined, modelsOf_visible h, scriptsIn_lined, scriptsIn_visible,
    readJson?_lined, readJson?_lined, readJson?_visible (by decide), readJson?_visible (by decide),
    samplesOf_lined, samplesOf_visible h, Files.find_lined, Files.find_lined,
    find_visible (by decide), hmarkup]
  cases modelsOf files with
  | error f => rfl
  | ok models =>
  cases scriptsIn files info with
  | error f => rfl
  | ok scripts =>
  cases readJson? files requestFile with
  | error f => rfl
  | ok request =>
  cases readJson? files responseFile with
  | error f => rfl
  | ok response =>
    simp only [Except.map, bind, Except.bind]
    exact assembled_fromDirectory ..

/-! ### The same files in an archive and in a directory -/

theorem fromUTF8_toUTF8 (s : String) : String.fromUTF8? s.toUTF8 = some s :=
  dif_pos s.isValidUTF8

section Files

variable {files : Files}

/-- **An archive** gives the files that it was written of, in order. -/
theorem files_write (h : files.names.Nodup)
    (hpaths : ∀ e ∈ files, Archive.isDirectory e.1 = false) :
    Archive.files (Archive.write files) = .ok files.sorted := by
  have hkept : (Archive.write files).filter (fun e => !Archive.isDirectory e.1) =
      Archive.write files := by
    rw [List.filter_eq_self, Archive.write, List.forall_mem_map]
    intro e he
    simp [hpaths e (Files.mem_sorted.mp he)]
  have htexts : (Archive.write files).mapM (fun e => do
      let text ← Archive.readText e.2
      return (e.1, text)) = .ok files.sorted := by
    rw [Archive.write, Outcome.mapM_eq_ok_iff, List.forall₂_map_left_iff, List.forall₂_same]
    intro e _
    rw [Archive.readText, fromUTF8_toUTF8]
    rfl
  rw [Archive.files, hkept, htexts]
  exact congrArg Except.ok (Table.ofList_eq_self (Files.nodup_names_sorted h))

/-- **A directory** gives the files in it that are not left out, with line feeds at the ends of
their lines. -/
theorem texts_directory {entries : List (String × ByteArray)}
    (hentries : entries.Perm (files.map fun e => (e.1, e.2.toUTF8))) :
    ∃ texts, ((entries.filter fun e => !isIgnored e.1).mergeSort fun d e => pathLe d.1 e.1).mapM
        readFile = .ok texts ∧ (visible files).lined.Perm texts := by
  have hkept : ((visible files).map fun e => (e.1, e.2.toUTF8)).Perm
      ((entries.filter fun e => !isIgnored e.1).mergeSort fun d e => pathLe d.1 e.1) := by
    have hfilter := (hentries.filter fun e => !isIgnored e.1).symm
    rw [List.filter_map] at hfilter
    exact hfilter.trans (List.mergeSort_perm _ _).symm
  refine Outcome.mapM_perm hkept ?_
  rw [Outcome.mapM_eq_ok_iff, Files.lined, Table.mapValues, List.forall₂_map_left_iff,
    List.forall₂_map_right_iff, List.forall₂_same]
  intro e _
  rw [readFile, fromUTF8_toUTF8]
  rfl

/-- Loading the archive written from a map of files gives what the map itself gives. -/
theorem yields_ofArchive {σ : Type} (env : Environment) (h : files.names.Nodup)
    (hpaths : ∀ e ∈ files, Archive.isDirectory e.1 = false) :
    (ofArchive env (Archive.write files) : Work σ Template).Yields (loaded env files) := by
  have hfiles : (Work.ofOutcome (Archive.files (Archive.write files)) : Work σ Files).Yields
      (.ok files.sorted) :=
    files_write h hpaths ▸ Work.yields_ofOutcome _
  rw [loaded_perm h files.sorted_perm.symm]
  exact hfiles.andThen ((Work.yields_note _ _ _ _).andThen (yields_ofFiles env _))

/-- Loading a directory, listed in any order, gives the map's template with its line ends
translated. -/
theorem yields_ofDirectory {σ : Type} (env : Environment) (root : String) (h : files.names.Nodup)
    {entries : List (String × ByteArray)}
    (hentries : entries.Perm (files.map fun e => (e.1, e.2.toUTF8))) :
    (ofDirectory env root entries : Work σ Template).Yields
      ((loaded env files).map fromDirectory) := by
  obtain ⟨texts, htexts, hperm⟩ := texts_directory hentries
  have hnames : (visible files).lined.names.Nodup := by
    rw [Files.names_lined]
    exact h.sublist (List.filter_sublist.map Prod.fst)
  rw [← loaded_fromDirectory h, loaded_perm hnames hperm]
  exact (htexts ▸ Work.yields_ofOutcome _ : Work.Yields _ (.ok texts)).andThen
    ((Work.yields_note _ _ _ _).andThen (yields_ofFiles env _))

end Files

/-! ### Templates that a directory leaves as they are -/

/-- A template without carriage returns in its texts, whose markup is in no file that is left
out of a directory. -/
structure Plain (t : Template) : Prop where
  readme : ∀ text ∈ t.metadata.readme, '\r' ∉ text.toList
  samples : ∀ e ∈ t.metadata.samples, '\r' ∉ e.2.toList
  scripts : ∀ scripts ∈ t.scripts, ∀ s ∈ scripts, '\r' ∉ s.contents.toList
  markup : ∀ text ∈ t.markup, '\r' ∉ text.toList ∧ isIgnored t.settings.grammarFile = false

def digestedText (t : Template) : String :=
  Json.canonical (Package.contents (t.models.map Prod.snd) t.markup t.scripts t.metadata)

section Plain

variable {env : Environment} {files : Files} {t : Template}

/-- An optional text is its own translation exactly if it has no carriage return. -/
theorem map_lined_eq_self_iff {text : Option String} :
    text.map Text.lined = text ↔ ∀ s ∈ text, '\r' ∉ s.toList := by
  cases text <;> simp [Text.lined_eq_self_iff]

/-- A script is its own translation exactly if its contents have no carriage return. -/
theorem linedScript_eq_self_iff {s : Script} : linedScript s = s ↔ '\r' ∉ s.contents.toList := by
  rw [← Text.lined_eq_self_iff, linedScript, Script.mk.injEq]
  simp

theorem linedSample_eq_self_iff {e : String × String} :
    (e.1, Text.lined e.2) = e ↔ '\r' ∉ e.2.toList := by
  rw [← Text.lined_eq_self_iff, Prod.ext_iff]
  simp

/-- **A plain template** is the same from a directory. -/
theorem Plain.fromDirectory_eq (h : t.Plain) : t.fromDirectory = t := by
  have hsamples : Files.lined t.metadata.samples = t.metadata.samples :=
    List.map_congr_left (fun e he => linedSample_eq_self_iff.mpr (h.samples e he)) |>.trans
      (List.map_id _)
  have hscripts : t.scripts.map (List.map linedScript) = t.scripts := by
    cases hlogic : t.scripts with
    | none => rfl
    | some scripts =>
      refine congrArg some ((List.map_congr_left fun s hs => ?_).trans (List.map_id _))
      exact linedScript_eq_self_iff.mpr (h.scripts scripts hlogic s hs)
  have hmarkup : (if isIgnored t.settings.grammarFile then none else t.markup.map Text.lined) =
      t.markup := by
    cases hmarkup : t.markup with
    | none => exact ite_self none
    | some text =>
      obtain ⟨hplain, hvisible⟩ := h.markup text hmarkup
      rw [if_neg (by simp [hvisible]), Option.map_some, Text.lined_eq_self_iff.mpr hplain]
  rw [fromDirectory, linedMetadata, hsamples, hscripts, hmarkup, map_lined_eq_self_iff.mpr h.readme]

/-- The models were read from JSON text, so their objects have no key twice. -/
theorem keyed_models {models : List (String × Value)} (h : modelsOf files = .ok models) :
    ∀ v ∈ models.map Prod.snd, v.Keyed := by
  rw [List.forall_mem_map]
  intro model hmodel
  obtain ⟨e, -, he⟩ := Outcome.exists_of_mem_mapM h hmodel
  obtain ⟨v, hv, rfl⟩ := Outcome.map_eq_ok.mp he
  unfold readJson at hv
  split at hv
  · cases hv
    exact Json.keyed_of_read ‹_›
  · cases hv

/-- No two scripts of a loaded template have one identifier. -/
theorem Loads.nodup_scripts (h : Loads env files t) (hfiles : files.names.Nodup) :
    ∀ scripts ∈ t.scripts, (scripts.map Script.identifier).Nodup := by
  intro scripts hscripts
  have hnames : (Table.names (files.filter fun e => isUnder "logic" e.1)).Nodup :=
    hfiles.sublist (List.filter_sublist.map Prod.fst)
  have hsublist := ((h.scriptFiles_sublist true).map Prod.fst).nodup (Files.nodup_names_sorted hnames)
  rwa [scriptFiles, if_pos rfl, Option.mem_def.mp hscripts, Option.getD_some, List.map_map] at hsublist

/-- What is kept among others by its key is kept as it is, if each key occurs once. -/
theorem eq_self_of_perm {α : Type} (f : α → α) (key : α → String) (hkey : ∀ a, key (f a) = key a)
    {as : List α} (h : (as.map key).Nodup) (hperm : (as.map f).Perm as) : ∀ a ∈ as, f a = a :=
  fun a ha => List.inj_on_of_nodup_map h (hperm.mem_iff.mp (List.mem_map_of_mem ha)) ha (hkey a)

/-- **A template whose text is digested alike** from a directory is plain. -/
theorem Loads.plain (h : Loads env files t) (hfiles : files.names.Nodup)
    (hsame : t.fromDirectory.digestedText = t.digestedText) : t.Plain := by
  have hidentifiers := h.nodup_scripts hfiles
  have hlogic : ∀ scripts ∈ t.fromDirectory.scripts, (scripts.map Script.identifier).Nodup := by
    intro scripts hscripts
    obtain ⟨raw, hraw, rfl⟩ := Option.map_eq_some_iff.mp hscripts
    rw [List.map_map]
    exact hidentifiers raw hraw
  obtain ⟨-, hmarkup, hscripts, hmetadata⟩ := (contents_alike_iff (keyed_models h.models) hlogic).mp
    (Json.alike_of_canonical hsame)
  refine ⟨map_lined_eq_self_iff.mp hmetadata.readme, fun e he => ?_, fun scripts hraw s hs => ?_,
    fun text htext => ?_⟩
  · exact linedSample_eq_self_iff.mp
      (eq_self_of_perm (fun e => (e.1, Text.lined e.2)) Prod.fst (fun _ => rfl) h.nodup_samples
        hmetadata.samples e he)
  · rw [fromDirectory, Option.mem_def.mp hraw] at hscripts
    cases hscripts with
    | some hperm =>
      exact linedScript_eq_self_iff.mp
        (eq_self_of_perm linedScript Script.identifier (fun _ => rfl) (hidentifiers scripts hraw) hperm s hs)
  · rw [fromDirectory, Option.mem_def.mp htext] at hmarkup
    dsimp only at hmarkup
    split at hmarkup
    · cases hmarkup
    · rename_i hvisible
      exact ⟨Text.lined_eq_self_iff.mp (Option.some.inj hmarkup), by simpa using hvisible⟩

end Plain

/-- **Where a package comes from.** Let files have different paths, none of which ends like that of
a directory, and write them to an archive and, in any order, to a directory. From both the same
template is loaded, or the same fault is found, but for the ends of lines: in the readme, the
samples, the markup and the scripts the directory has line feeds, and markup in a file that it
leaves out is missing. So the two are the same template with the same digest if the one from the
archive is plain, and only then is the same text digested. -/
theorem sources_spec {σ τ : Type} (env : Environment) (root : String) {files : Files}
    (hfiles : files.names.Nodup) (hpaths : ∀ e ∈ files, Archive.isDirectory e.1 = false)
    {entries : List (String × ByteArray)}
    (hentries : entries.Perm (files.map fun e => (e.1, e.2.toUTF8))) :
    (ofArchive env (Archive.write files) : Work σ Template).Yields (loaded env files) ∧
      (ofDirectory env root entries : Work τ Template).Yields ((loaded env files).map fromDirectory) ∧
      ∀ t, loaded env files = .ok t →
        (∀ session, (hash.run t session).1 = .ok (Digest.ofString t.digestedText)) ∧
        (∀ session, (hash.run t.fromDirectory session).1 =
          .ok (Digest.ofString t.fromDirectory.digestedText)) ∧
        (t.Plain → t.fromDirectory = t) ∧
        (t.fromDirectory.digestedText = t.digestedText ↔ t.Plain) := by
  refine ⟨yields_ofArchive env hfiles hpaths, yields_ofDirectory env root hfiles hentries,
    fun t ht => ?_⟩
  have hloads := loaded_eq_ok_iff.mp ht
  refine ⟨run_hash hloads.digest, run_hash hloads.digest, Plain.fromDirectory_eq,
    hloads.plain hfiles, fun hplain => ?_⟩
  rw [hplain.fromDirectory_eq]

end Template

/-! ### A package with another end of a line -/

namespace Lease

open Package Template

def filesWith (readme : String) : Files :=
  ("README.md", readme) :: files.tail

/-- The template of the package with another readme. -/
def templateWith (readme : String) : Template :=
  { template with metadata := { template.metadata with readme := some readme } }

theorem sorted_filesWith (readme : String) : (filesWith readme).sorted = filesWith readme := by
  have hnames : (filesWith readme).map Prod.fst = files.map Prod.fst := rfl
  have horder : (files.map Prod.fst).Pairwise (· ≤ ·) := by decide +kernel
  exact Files.sorted_eq_self (List.pairwise_map.mp (hnames ▸ horder))

theorem filter_filesWith {p : String → Bool} (hp : p "README.md" = false) (readme : String) :
    (filesWith readme).filter (fun e => p e.1) = files.filter fun e => p e.1 := by
  change List.filter _ (("README.md", readme) :: files.tail) =
    List.filter _ (("README.md", "Leases") :: files.tail)
  rw [List.filter_cons_of_neg (by simp [hp]), List.filter_cons_of_neg (by simp [hp])]

theorem loads_filesWith (readme : String) :
    Loads environment (filesWith readme) (templateWith readme) := by
  have hinfo : infoOf (filesWith readme) = infoOf files := by
    have hpackage : (filesWith readme).find? packageFile = files.find? packageFile := rfl
    rw [infoOf, infoOf, readJson_congr hpackage]
  have hpaths : paths (filesWith readme) = paths files := by
    rw [paths, paths, sorted_filesWith, sorted_files]
    rfl
  have hmodels : modelsOf (filesWith readme) = modelsOf files := by
    rw [modelsOf, modelsOf, sorted_filesWith, sorted_files, filter_filesWith (by decide)]
  obtain ⟨henvironment, hdescribed, hsound, -, hsamples, haccepted, hrequest, hresponse, hread', hcatalog,
    hmarkup, hscripts, hregistry, hdigest⟩ := loads_files
  refine
    { environment := henvironment
      info := hinfo.trans hdescribed
      sound := ?_
      readme := rfl
      samples := ?_
      accepted := haccepted
      request := ?_
      response := ?_
      models := hmodels.trans hread'
      catalog := hcatalog
      markup := hmarkup
      scripts := ?_
      registry := hregistry
      digest := hdigest }
  · rw [Package.errors, checkSamples, checkLogic, hpaths]
    exact hsound
  · have hreadme : sampleLocale? "README.md" = none := by decide
    have hskip : ∀ text : String, (("README.md", text) :: files.tail).filterMap
          (fun e => (sampleLocale? e.1).map fun l => (l, e.2)) =
        files.tail.filterMap fun e => (sampleLocale? e.1).map fun l => (l, e.2) :=
      fun text => List.filterMap_cons_none (by rw [hreadme, Option.map_none])
    rw [samplesOf, sorted_files] at hsamples
    rw [samplesOf, sorted_filesWith, filesWith, hskip]
    exact hsamples.trans (congrArg Table.ofList (hskip "Leases"))
  · obtain ⟨w, hw, hobject⟩ := hrequest
    exact ⟨w, (readJson_congr rfl).trans hw, hobject⟩
  · obtain ⟨w, hw, hobject⟩ := hresponse
    exact ⟨w, (readJson_congr rfl).trans hw, hobject⟩
  · rw [scriptsIn, filter_filesWith (by decide)]
    exact hscripts

/-- With another end of a line in the readme the package is loaded from both, and the digested
texts differ. -/
theorem sources_lease : ∃ t,
    (ofArchive environment (Archive.write (filesWith "Leases\r\n")) : Work Unit Template).Yields
        (.ok t) ∧
      (ofDirectory environment "leases" ((filesWith "Leases\r\n").map fun e => (e.1, e.2.toUTF8)) :
        Work Unit Template).Yields (.ok t.fromDirectory) ∧
      t.fromDirectory.digestedText ≠ t.digestedText := by
  have hload := loaded_eq_ok_iff.mpr (loads_filesWith "Leases\r\n")
  obtain ⟨harchive, hdirectory, htemplate⟩ :=
    @sources_spec Unit Unit environment "leases" (filesWith "Leases\r\n") (by decide +kernel)
      (by decide +kernel) _ (List.Perm.refl _)
  rw [hload] at harchive hdirectory
  refine ⟨_, harchive, hdirectory, fun hsame => ?_⟩
  have hplain := ((htemplate _ hload).2.2.2.mp hsame).readme "Leases\r\n" rfl
  exact hplain (by decide)

end Lease

end Covenant
