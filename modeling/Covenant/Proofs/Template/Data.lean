import Covenant.Proofs.Template.Redrafting

/-!
The data of an instance.

* `Template.Admits`: data that validation finds nothing wrong with.
* `Instance.use_ends`: one use makes its value the data, which is admitted, or leaves the data as it
  is.
* `Instance.data_history`: after every run of uses, the data is what the last one gave that succeeded,
  and is admitted.
-/

namespace Covenant

open Work

namespace Template

/-- **Data that a template admits**: it names the type that the template models as its own, and
validation finds nothing. -/
def Admits (t : Template) (v : Value) : Prop :=
  ∃ type, t.type = .ok type ∧ Instance.isOf type v = true ∧
    t.catalog.validate v (some type.fqn) = .ok []

variable {t t' : Template} {v : Value}

/-- Data that passes the check is admitted. -/
theorem admits_of_checkData {type : SchemaType} (htype : t.type = .ok type)
    (hclass : Instance.isOf type v = true) (hvalid : t.checkData v = .ok ()) : t.Admits v := by
  refine ⟨type, htype, hclass, ?_⟩
  obtain ⟨_, htype', hvalid⟩ := Outcome.bind_eq_ok.mp hvalid
  cases htype.symm.trans htype'
  obtain ⟨found, hfound, hvalid⟩ := Outcome.bind_eq_ok.mp hvalid
  cases found with
  | nil => exact hfound
  | cons message found => cases hvalid

/-- The same template, but for the grammar in force. -/
def SameButGrammar (t t' : Template) : Prop :=
  ∃ r, t' = { t with registry := r }

theorem SameButGrammar.refl (t : Template) : t.SameButGrammar t :=
  ⟨t.registry, rfl⟩

theorem SameButGrammar.trans {t'' : Template} (h : t.SameButGrammar t')
    (h' : t'.SameButGrammar t'') : t.SameButGrammar t'' := by
  obtain ⟨_, rfl⟩ := h
  obtain ⟨r, rfl⟩ := h'
  exact ⟨r, rfl⟩

theorem Lazily.sameButGrammar (h : t.Lazily t') : t.SameButGrammar t' := by
  rcases h with rfl | ⟨-, r, -, rfl⟩
  · exact .refl _
  · exact ⟨r, rfl⟩

/-- What is admitted does not depend on the grammar. -/
theorem SameButGrammar.admits_iff (h : t.SameButGrammar t') : t'.Admits v ↔ t.Admits v := by
  obtain ⟨_, rfl⟩ := h
  rfl

end Template

namespace Instance

/-! ### Uses -/

/-- A use of an instance: its data is set, is read from a text, or is drafted. -/
inductive Use where
  | set (data : Value)
  | read (text : String) (clock : Option Int := none) (file : Option String := none)
      (zones : String → Option Zone := fun _ => none)
  | draft (options : Outcome DraftOptions := .ok {})

/-- The work of a use; the answer to setting data is the data. -/
def Use.work : Use → Work Instance Value
  | set data => do
    setData data
    return data
  | read text clock file zones => Instance.read text clock file zones
  | draft options => Instance.draft options

/-- Whether the answer of a use is data for the instance. -/
def Use.gives : Use → Bool
  | set _ | read .. => true
  | draft _ => false

/-- **One use** touches nothing of the template but the grammar in force. If it gives data and
succeeds, its answer is the data, which is admitted; otherwise the data is as it was. -/
theorem use_ends (u : Use) (i : Instance) : u.work.Ends i
    (fun v i' => i.template.SameButGrammar i'.template ∧
      i'.data = (if u.gives then some v else i.data) ∧ (u.gives = true → i.template.Admits v))
    fun _ i' => i.template.SameButGrammar i'.template ∧ i'.data = i.data := by
  cases u with
  | set data =>
    refine (setData_spec data i).bind ?_ fun _ i' h => h ▸ ⟨.refl _, rfl⟩
    rintro _ _ ⟨rfl, type, htype, hclass, hvalid⟩
    exact ends_pure ⟨.refl _, rfl, fun _ => Template.admits_of_checkData htype hclass hvalid⟩
  | read text clock file zones =>
    have htemplate := read_ends text clock file zones i
    have hdata := readData_ends text clock file zones i
    constructor
    · intro session v i' session' hrun
      have hsame := (htemplate.ok hrun).sameButGrammar
      obtain ⟨-, hv, -, type, -, -, htype, hclass, hvalid⟩ := hdata.ok hrun
      exact ⟨hsame, hv, fun _ =>
        hsame.admits_iff.mp (Template.admits_of_checkData htype hclass hvalid)⟩
    · intro session f i' session' hrun
      exact ⟨(htemplate.error hrun).sameButGrammar, hdata.error hrun⟩
  | draft options =>
    have hlazily : ∀ i', i.Lazily i' → i.template.SameButGrammar i'.template ∧ i'.data = i.data := by
      rintro _ ⟨t', ht', rfl⟩
      exact ⟨ht'.sameButGrammar, rfl⟩
    exact (draft_ends options i).mono
      (fun _ i' h => ⟨(hlazily i' h).1, (hlazily i' h).2, fun hgives => by cases hgives⟩)
      fun _ i' h => hlazily i' h

/-! ### Runs of uses -/

/-- A use that was made, and what it answered. -/
structure Event where
  use : Use
  answer : Outcome Value

/-- The data that an event has given to the instance. -/
def Event.data? (e : Event) : Option Value :=
  if e.use.gives then e.answer.toOption else none

/-- The uses that were made, and the instance and the session after them. -/
structure Record where
  events : List Event
  used : Instance
  session : Session

/-- **Uses one after another**, whether they succeed or not. -/
def history : List Use → Instance → Session → Record
  | [], i, s => ⟨[], i, s⟩
  | u :: uses, i, s =>
    let (answer, i', s') := u.work.run i s
    let x := history uses i' s'
    { x with events := ⟨u, answer⟩ :: x.events }

/-- What one event makes of an instance. -/
structure Event.Step (e : Event) (i i' : Instance) : Prop where
  template : i.template.SameButGrammar i'.template
  data : i'.data = e.data?.or i.data
  admitted : ∀ v, e.data? = some v → i.template.Admits v

theorem step_of_run {u : Use} {i i' : Instance} {answer : Outcome Value} {s s' : Session}
    (h : u.work.run i s = (answer, i', s')) : Event.Step ⟨u, answer⟩ i i' := by
  cases answer with
  | error f =>
    obtain ⟨htemplate, hdata⟩ := (use_ends u i).error h
    refine ⟨htemplate, ?_, ?_⟩ <;> simp [Event.data?, Except.toOption, hdata]
  | ok v =>
    obtain ⟨htemplate, hdata, hadmitted⟩ := (use_ends u i).ok h
    refine ⟨htemplate, ?_, ?_⟩
    · rw [hdata]
      cases hgives : u.gives <;> simp [Event.data?, Except.toOption, hgives]
    · cases hgives : u.gives <;> simp [Event.data?, Except.toOption, hgives, hadmitted]

/-- **A run of uses** gives data one after another, all of which is admitted. -/
theorem history_run (uses : List Use) (i : Instance) (session : Session) :
    let x := history uses i session
    let given := x.events.filterMap Event.data?
    x.events.map Event.use = uses ∧ i.template.SameButGrammar x.used.template ∧
      x.used.data = given.getLast?.or i.data ∧ ∀ v ∈ given, i.template.Admits v := by
  induction uses generalizing i session with
  | nil => exact ⟨rfl, .refl _, by simp [history], by simp [history]⟩
  | cons u uses ih =>
    rcases hrun : u.work.run i session with ⟨answer, i', s'⟩
    obtain ⟨huses, htemplate, hdata, hadmitted⟩ := ih i' s'
    have hstep := step_of_run hrun
    have hhistory : history (u :: uses) i session =
        { history uses i' s' with events := ⟨u, answer⟩ :: (history uses i' s').events } := by
      rw [history, hrun]
    rw [hhistory]
    refine ⟨congrArg _ huses, hstep.template.trans htemplate, ?_, ?_⟩
    · rw [hdata, hstep.data, List.filterMap_cons]
      cases hgiven : Event.data? ⟨u, answer⟩ with
      | none => rfl
      | some v =>
        rw [List.getLast?_cons]
        cases ((history uses i' s').events.filterMap Event.data?).getLast? <;> rfl
    · have hrest : ∀ v ∈ (history uses i' s').events.filterMap Event.data?, i.template.Admits v :=
        fun v hv => hstep.template.admits_iff.mp (hadmitted v hv)
      rw [List.filterMap_cons]
      cases hgiven : Event.data? ⟨u, answer⟩ with
      | none => exact hrest
      | some v => exact List.forall_mem_cons.mpr ⟨hstep.admitted v hgiven, hrest⟩

/-- **The data of an instance is valid.** After every run of uses of an instance without data,
whichever of them failed, the data is the value of the last setting or reading that succeeded, if any
did. It is admitted by the template, of which nothing has changed but the grammar in force. A use that
fails now leaves the data as it is, and so does drafting; setting or reading makes its value the
data. -/
theorem data_history (t : Template) (uses : List Use) (session : Session) :
    let x := history uses { template := t } session
    let given := x.events.filterMap Event.data?
    x.events.map Event.use = uses ∧ t.SameButGrammar x.used.template ∧
      x.used.data = given.getLast? ∧
      (∀ v, x.used.data = some v → x.used.template.Admits v ∧ t.Admits v) ∧
      ∀ u : Use, ∃ answer i s, u.work.run x.used x.session = (answer, i, s) ∧
        (∀ f, answer = .error f → i.data = x.used.data) ∧
        ∀ v, answer = .ok v → i.data = if u.gives then some v else x.used.data := by
  intro x given
  obtain ⟨huses, htemplate, hdata, hadmitted⟩ := history_run uses { template := t } session
  rw [Option.or_none] at hdata
  refine ⟨huses, htemplate, hdata, fun v hv => ?_, fun u => ?_⟩
  · have hv := hadmitted v (List.mem_of_getLast? (hdata.symm.trans hv))
    exact ⟨htemplate.admits_iff.mpr hv, hv⟩
  · rcases hrun : u.work.run x.used x.session with ⟨answer, i, s⟩
    refine ⟨answer, i, s, rfl, ?_, ?_⟩
    · rintro f rfl
      exact ((use_ends u x.used).error hrun).2
    · rintro v rfl
      exact ((use_ends u x.used).ok hrun).2.1

end Instance

end Covenant
