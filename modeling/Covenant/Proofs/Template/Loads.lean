import Covenant.Proofs.Package.Readings
import Covenant.Proofs.Template.Registry
import Covenant.Template.Export

/-!
Loading templates.

* `Work.Yields`: work that gives a result and changes nothing but the journal.
* `Template.loaded`: what is loaded from files. `Template.yields_ofFiles` says that loading
  gives it.
* `Template.Loads`: the template that files make up, part by part. By
  `Template.run_ofFiles_iff` it is the one that is loaded.
-/

namespace Covenant

/-! ### Work that is noted -/

namespace Work

variable {σ α β : Type}

/-- Work gives a result, and changes nothing but the journal. -/
def Yields (w : Work σ α) (o : Outcome α) : Prop :=
  ∀ state session, ∃ s, w.run state session = (o, state, s)

theorem yields_ofOutcome (o : Outcome α) : (ofOutcome o : Work σ α).Yields o :=
  fun _ session => ⟨session, rfl⟩

theorem yields_note (severity : Journal.Severity) (part message : String)
    (report : Option Fault.Report) :
    (note severity part message report : Work σ Unit).Yields (.ok ()) := by
  intro state session
  obtain ⟨s, _, h⟩ := run_note severity part message report state session
  exact ⟨s, h⟩

theorem Yields.bind {w : Work σ α} {o : Outcome α} {f : α → Work σ β} {g : α → Outcome β}
    (h : w.Yields o) (hf : ∀ a, (f a).Yields (g a)) : (w >>= f).Yields (o >>= g) := by
  intro state session
  obtain ⟨s, hs⟩ := h state session
  cases o with
  | error e => exact ⟨s, run_bind_error hs⟩
  | ok a =>
    rw [run_bind_ok hs]
    exact hf a state s

/-- Work after work that succeeds. -/
theorem Yields.andThen {w : Work σ α} {a : α} {f : α → Work σ β} {o : Outcome β}
    (h : w.Yields (.ok a)) (hf : (f a).Yields o) : (w >>= f).Yields o := by
  intro state session
  obtain ⟨s, hs⟩ := h state session
  rw [run_bind_ok hs]
  exact hf state s

theorem yields_forIn {as : List α} {f : α → Work σ Unit} (hf : ∀ a, (f a).Yields (.ok ())) :
    (forIn as PUnit.unit fun a _ => do
      f a
      pure (ForInStep.yield PUnit.unit) : Work σ PUnit).Yields (.ok ()) := by
  induction as with
  | nil => exact yields_ofOutcome (.ok ())
  | cons a as ih =>
    have hstep : (f a >>= fun _ => pure (ForInStep.yield PUnit.unit) :
        Work σ (ForInStep PUnit)).Yields (.ok (.yield PUnit.unit)) :=
      (hf a).andThen (yields_ofOutcome (.ok _))
    rw [List.forIn_cons]
    exact hstep.andThen ih

end Work

namespace Template

open Package Shape

/-! ### What is loaded -/

def added (c : Catalog) : List (String × Value) → Outcome Catalog
  | [] => .ok c
  | (file, v) :: models => do
    let (o, c) := c.add v (some file)
    let _ ← o
    added c models

def assembled (env : Environment) (p : Parts) : Outcome Template := do
  let metadata ← ofChecked (some packageFile)
    (Metadata.read (Metadata.partsValue p.package p.readme p.samples p.request p.response))
  let catalog ← added .system p.models
  return { environment := env, metadata, models := p.models, markup := p.markup
           scripts := if metadata.info.profile.logicOmitted then p.scripts
                      else some (p.scripts.getD [])
           catalog }

def loaded (env : Environment) (files : Files) : Outcome Template := do
  let info? ← infoOf files
  let runtime := info?.bind fun i => i.profile.runtime.map Language.name
  match Package.errors files runtime, info? with
  | f :: _, _ => .error (findingFault f)
  | [], none => .error (findingFault .noPackage)
  | [], some info => do
    let parts ← partsOf env files info
    assembled env parts

theorem yields_addModels {σ : Type} (c : Catalog) (models : List (String × Value)) :
    (addModels c models : Work σ Catalog).Yields (added c models) := by
  induction models generalizing c with
  | nil => exact Work.yields_ofOutcome (.ok c)
  | cons e models ih =>
    rw [addModels, added]
    exact (Work.yields_ofOutcome _).bind fun m =>
      (Work.yields_note _ _ _ _).bind fun _ => ih _

theorem yields_ofParts {σ : Type} (env : Environment) (p : Parts) :
    (ofParts env p : Work σ Template).Yields (assembled env p) :=
  (Work.yields_ofOutcome _).bind fun _ =>
    (yields_addModels _ _).bind fun _ => Work.yields_ofOutcome _

/-- **Loading a template** gives what its files hold, and changes nothing but the journal. -/
theorem yields_ofFiles {σ : Type} (env : Environment) (files : Files) :
    (ofFiles env files : Work σ Template).Yields (loaded env files) := by
  refine (Work.yields_ofOutcome _).bind fun info? => ?_
  refine (Work.yields_forIn fun w => Work.yields_note _ _ _ _).andThen ?_
  dsimp only
  generalize Package.errors files _ = found
  cases found with
  | cons f found => exact Work.yields_ofOutcome (.error _)
  | nil =>
    cases info? with
    | none => exact Work.yields_ofOutcome (.error _)
    | some info => exact (Work.yields_ofOutcome _).bind fun parts => yields_ofParts env parts

/-! ### Part by part -/

/-- The scripts among files, unless they were left out. -/
def scriptsIn (files : Files) (info : Info) : Outcome (Option (List Script)) :=
  if info.profile.logicOmitted then .ok none
  else (scriptsOf (files.filter fun e => isUnder "logic" e.1)).map some

/-- A value is that of a JSON file, if there is one, and an object or missing. -/
def HoldsObject (files : Files) (file : String) (v : Option Value) : Prop :=
  ∃ w, readJson? files file = .ok w ∧ MaybeObject w ∧ v = present w

/-- The template that files make up. -/
structure Loads (env : Environment) (files : Files) (t : Template) : Prop where
  environment : t.environment = env
  info : infoOf files = .ok (some t.metadata.info)
  sound : Package.errors files (t.runtime.map Language.name) = []
  readme : t.metadata.readme = files.find? readmeFile
  samples : t.metadata.samples = samplesOf files
  accepted : refuseSamples t.metadata.samples = none
  request : HoldsObject files requestFile t.metadata.request
  response : HoldsObject files responseFile t.metadata.response
  models : modelsOf files = .ok t.models
  catalog : added .system t.models = .ok t.catalog
  markup : t.markup = files.find? env.settings.grammarFile
  scripts : scriptsIn files t.metadata.info = .ok t.scripts
  registry : t.registry = {}
  digest : t.digest = none

theorem ofChecked_eq_ok {α : Type} {file : Option String} {c : Checked α} {a : α} :
    ofChecked file c = .ok a ↔ c = .ok a := by
  cases c <;> simp [ofChecked, Except.mapError]

theorem infoOf_eq_some {files : Files} {info : Info} (h : infoOf files = .ok (some info)) :
    info.Valid := by
  obtain ⟨v?, _, h⟩ := Outcome.bind_eq_ok.mp h
  cases v? with
  | none => cases h
  | some v =>
    obtain ⟨i, hi, h⟩ := Outcome.bind_eq_ok.mp h
    cases h
    exact Info.valid_of_read (ofChecked_eq_ok.mp hi)

/-- There are scripts iff they were not left out. -/
theorem scripts_of_scriptsIn {files : Files} {info : Info} {scripts : Option (List Script)}
    (h : scriptsIn files info = .ok scripts) :
    (if info.profile.logicOmitted then scripts else some (scripts.getD [])) = scripts := by
  unfold scriptsIn at h
  split at h
  · rw [if_pos ‹_›]
  · obtain ⟨found, _, rfl⟩ := Outcome.map_eq_ok.mp h
    rw [if_neg ‹_›]
    rfl

/-- The parts of a template, each with the files that it is read from. -/
theorem partsOf_eq (env : Environment) (files : Files) (info : Info) :
    partsOf env files info = modelsOf files >>= fun models =>
      scriptsIn files info >>= fun scripts =>
      readJson? files requestFile >>= fun request =>
      readJson? files responseFile >>= fun response =>
        .ok { package := info.toValue, readme := .ofText? (files.find? readmeFile)
              samples := samplesValue (samplesOf files), request := .ofOption request
              response := .ofOption response, models
              markup := files.find? env.settings.grammarFile, scripts } := by
  unfold partsOf scriptsIn
  cases info.profile.logicOmitted <;> rfl

theorem partsOf_eq_ok_iff {env : Environment} {files : Files} {info : Info} {parts : Parts} :
    partsOf env files info = .ok parts ↔ ∃ models, modelsOf files = .ok models ∧
      ∃ scripts, scriptsIn files info = .ok scripts ∧
      ∃ request, readJson? files requestFile = .ok request ∧
      ∃ response, readJson? files responseFile = .ok response ∧
        parts = { package := info.toValue, readme := .ofText? (files.find? readmeFile)
                  samples := samplesValue (samplesOf files), request := .ofOption request
                  response := .ofOption response, models
                  markup := files.find? env.settings.grammarFile, scripts } := by
  rw [partsOf_eq]
  simp only [Outcome.bind_eq_ok, Except.ok.injEq, @eq_comm Parts _ parts]

theorem loaded_eq_ok_iff {env : Environment} {files : Files} {t : Template} :
    loaded env files = .ok t ↔ Loads env files t := by
  constructor
  · intro h
    obtain ⟨info?, hinfo, h⟩ := Outcome.bind_eq_ok.mp h
    dsimp only at h
    split at h
    · cases h
    · cases h
    · rename_i info hsound
      obtain ⟨parts, hparts, h⟩ := Outcome.bind_eq_ok.mp h
      obtain ⟨models, hmodels, scripts, hscripts, request, hrequest, response, hresponse, rfl⟩ :=
        partsOf_eq_ok_iff.mp hparts
      obtain ⟨metadata, hmetadata, h⟩ := Outcome.bind_eq_ok.mp h
      obtain ⟨catalog, hcatalog, h⟩ := Outcome.bind_eq_ok.mp h
      cases h
      obtain ⟨haccepted, hfirst, hsecond, rfl⟩ :=
        (Metadata.read_partsValue_iff (infoOf_eq_some hinfo)).mp (ofChecked_eq_ok.mp hmetadata)
      refine ⟨rfl, hinfo, hsound, rfl, rfl, haccepted, ⟨request, hrequest, hfirst, rfl⟩,
        ⟨response, hresponse, hsecond, rfl⟩, hmodels, hcatalog, rfl, ?_, rfl, rfl⟩
      exact hscripts.trans (congrArg _ (scripts_of_scriptsIn hscripts).symm)
  · intro h
    obtain ⟨environment, ⟨info, readme, samples, request, response⟩, models, markup, scripts,
      catalog, registry, digest⟩ := t
    obtain ⟨henvironment, hinfo, hsound, hreadme, hsamples, haccepted,
      ⟨first, hrequest, hfirst, hpresent⟩, ⟨second, hresponse, hsecond, hpresent'⟩, hmodels,
      hcatalog, hmarkup, hscripts, hregistry, hdigest⟩ := h
    dsimp only at *
    subst henvironment hreadme hsamples hpresent hpresent' hmarkup hregistry hdigest
    have hparts := (@partsOf_eq_ok_iff environment _ _ _).mpr
      ⟨models, hmodels, scripts, hscripts, first, hrequest, second, hresponse, rfl⟩
    have hmetadata := (@Metadata.read_partsValue_iff _ (infoOf_eq_some hinfo)
      (files.find? readmeFile) _ _ _ _).mpr ⟨haccepted, hfirst, hsecond, rfl⟩
    refine Outcome.bind_eq_ok.mpr ⟨some info, hinfo, ?_⟩
    simp only [runtime] at hsound
    simp only [Option.bind_some, hsound]
    refine Outcome.bind_eq_ok.mpr ⟨_, hparts, Outcome.bind_eq_ok.mpr
      ⟨_, ofChecked_eq_ok.mpr hmetadata, Outcome.bind_eq_ok.mpr ⟨catalog, hcatalog, ?_⟩⟩⟩
    rw [scripts_of_scriptsIn hscripts]
    rfl

/-- **A template is loaded from files** if it is the one that they make up. -/
theorem run_ofFiles_iff {σ : Type} {env : Environment} {files : Files} {t : Template} {state : σ}
    {session : Session} :
    ((ofFiles env files).run state session).1 = .ok t ↔ Loads env files t := by
  obtain ⟨s, hs⟩ := yields_ofFiles env files state session
  rw [hs, loaded_eq_ok_iff]

theorem Loads.run {env : Environment} {files : Files} {t : Template} (h : Loads env files t)
    {σ : Type} (state : σ) (session : Session) :
    ∃ s, (ofFiles env files).run state session = (.ok t, state, s) := by
  rw [← loaded_eq_ok_iff.mpr h]
  exact yields_ofFiles env files state session

end Template

end Covenant
