import Covenant.Proofs.Template.Inspection
import Covenant.Proofs.Template.Packages

/-!
The digest that a template keeps.

* `Template.Still`: what work leaves as it is that fails, or that only reads.
* `Template.Moves`: a template keeps its contents, or forgets its digest.
* `Step.ends`: every step moves the template, and leaves it as it is if it fails.
* `Template.hash_current`: after every run of steps the digest is that of the contents.
-/

namespace Covenant

open Work

namespace Template

/-! ### Contents and digests -/

/-- **The contents are the same**, and so is the digest that is kept. -/
structure Still (t t' : Template) : Prop where
  models : t'.models = t.models
  markup : t'.markup = t.markup
  scripts : t'.scripts = t.scripts
  metadata : t'.metadata = t.metadata
  digest : t'.digest = t.digest

theorem Still.refl (t : Template) : t.Still t :=
  ⟨rfl, rfl, rfl, rfl, rfl⟩

theorem Still.of_eq {t t' : Template} (h : t' = t) : t.Still t' :=
  h ▸ .refl t

theorem Still.of_lazily {t t' : Template} (h : t.Lazily t') : t.Still t' := by
  rcases h with rfl | ⟨-, r', -, rfl⟩
  · exact .refl _
  · exact ⟨rfl, rfl, rfl, rfl, rfl⟩

theorem Still.contentDigest {t t' : Template} (h : t.Still t') :
    t'.contentDigest = t.contentDigest := by
  rw [Template.contentDigest, h.models, h.markup, h.scripts, h.metadata]
  rfl

/-- **The digest that is kept** is that of the contents. -/
def Digested (t : Template) : Prop :=
  ∀ d, t.digest = some d → d = t.contentDigest

theorem Still.digested {t t' : Template} (h : t.Still t') (ht : t.Digested) : t'.Digested := by
  intro d hd
  rw [h.contentDigest]
  exact ht d (h.digest ▸ hd)

/-- How a template moves on: its contents stay, or it forgets its digest, or its digest is made. -/
def Moves (t t' : Template) : Prop :=
  t.Still t' ∨ t'.digest = none ∨ t' = { t with digest := some t.contentDigest }

theorem Moves.digested {t t' : Template} (h : t.Moves t') (ht : t.Digested) : t'.Digested := by
  rcases h with h | hnone | rfl
  · exact h.digested ht
  · intro d hd
    rw [hnone] at hd
    cases hd
  · intro d hd
    exact (Option.some.inj hd).symm

/-- **The digest that is asked for** is that of the contents. -/
theorem run_hash_digested {t : Template} (h : t.Digested) (session : Session) :
    (hash.run t session).1 = .ok t.contentDigest := by
  have hstate : Work.state.run t session = ((.ok t, t, session) : Outcome Template × _ × _) := rfl
  unfold hash
  rw [run_bind_ok hstate]
  cases hdigest : t.digest with
  | none => rfl
  | some d =>
    rw [h d hdigest]
    rfl

theorem hash_moves (t : Template) :
    hash.Ends t (fun _ t' => t.Moves t') fun _ t' => t.Still t' := by
  unfold hash
  refine Ends.of_state ?_
  cases t.digest with
  | some d => exact ends_pure (.inl (.refl t))
  | none => exact Ends.of_put (ends_pure (.inr (.inr rfl)))

/-! ### Edits -/

/-- An edit of the metadata. -/
inductive Edit where
  | readme (text : Option String)
  | samples (samples : Value)
  | sample (locale : String) (text : Value)
  | request (request : Option Value)
  | keywords (keywords : Value)

/-- The template after an edit, if it can be made. -/
def Edit.apply : Edit → Template → Outcome Template
  | readme text, t => .ok (t.withReadme text)
  | samples v, t => t.withSamples v
  | sample locale text, t => t.withSample locale text
  | request v, t => .ok (t.withRequest v)
  | keywords v, t => t.withKeywords v

/-- An edited template has forgotten its digest. -/
theorem Edit.digest_eq_none {e : Edit} {t t' : Template} (h : e.apply t = .ok t') :
    t'.digest = none := by
  cases e with
  | readme text =>
    cases h
    rfl
  | request v =>
    cases h
    rfl
  | samples v =>
    obtain ⟨m, -, rfl⟩ := Outcome.map_eq_ok.mp h
    rfl
  | sample locale text =>
    obtain ⟨m, -, rfl⟩ := Outcome.map_eq_ok.mp h
    rfl
  | keywords v =>
    obtain ⟨vs, -, h⟩ := Outcome.bind_eq_ok.mp h
    cases h
    rfl

/-- **An edit** makes the template forget its digest, or changes nothing. -/
theorem change_moves (e : Edit) (t : Template) :
    (Template.change e.apply).Ends t (fun _ t' => t.Moves t') fun _ t' => t.Still t' := by
  unfold Template.change
  refine Ends.of_state (Ends.of_ofOutcome (fun t' ht' => ?_) fun _ _ => .refl t)
  exact ends_put (.inr (.inl (e.digest_eq_none ht')))

/-! ### Operations -/

theorem build_moves (text : Option String) (t : Template) :
    (Template.build text).Ends t (fun _ t' => t.Moves t') fun _ t' => t.Still t' := by
  refine (build_ends text t).mono ?_ fun _ _ h => .of_eq h
  rintro _ _ ⟨markup, type, r', -, -, -, rfl⟩
  unfold withMarkup
  split
  · exact .inl ⟨rfl, rfl, rfl, rfl, rfl⟩
  · exact .inr (.inl rfl)

theorem setGrammar_still (source : String) (t : Template) :
    (Template.setGrammar source).Ends t (fun _ t' => t.Still t') fun _ t' => t.Still t' := by
  unfold Template.setGrammar
  refine Ends.of_state (Ends.within (onRegistry_ends (fun type _ => ?_) fun _ _ => .refl t) _)
  exact (Registry.set_ends _ source t.registry).mono (fun _ _ _ => ⟨rfl, rfl, rfl, rfl, rfl⟩)
    fun _ _ _ => ⟨rfl, rfl, rfl, rfl, rfl⟩

/-- Asks for a reader of texts, for which a grammar is built if none is in force. -/
def reader : Work Template Reader := do
  ensureGrammar
  let g ← Work.ofOutcome (← Work.state).registry.current
  return { grammar := g }

theorem ensureGrammar_still (t : Template) :
    ensureGrammar.Ends t (fun _ t' => t.Still t') fun _ t' => t.Still t' := by
  refine (ensureGrammar_ends t).mono ?_ fun _ _ h => .of_eq h
  rintro _ _ (⟨-, rfl⟩ | ⟨-, r', -, rfl⟩)
  · exact .refl _
  · exact ⟨rfl, rfl, rfl, rfl, rfl⟩

theorem reader_still (t : Template) :
    reader.Ends t (fun _ t' => t.Still t') fun _ t' => t.Still t' := by
  unfold reader
  refine (ensureGrammar_still t).bind (fun _ t' h => ?_) fun _ _ h => h
  exact Ends.of_state (Ends.of_ofOutcome (fun _ _ => ends_pure h) fun _ _ => h)

end Template

/-- **One operation** moves the template, and leaves it as it is if it fails. -/
theorem Operation.moves (o : Operation) (i : Instance) :
    o.work.Ends i (fun _ i' => i.template.Moves i'.template)
      fun _ i' => i.template.Still i'.template := by
  have hdiscard : ∀ {α : Type} {w : Work Instance α},
      w.Ends i (fun _ i' => i.template.Moves i'.template)
        (fun _ i' => i.template.Still i'.template) →
      (w >>= fun _ => pure ()).Ends i (fun _ i' => i.template.Moves i'.template)
        fun _ i' => i.template.Still i'.template :=
    fun h => h.bind (fun _ _ h => ends_pure h) fun _ _ h => h
  cases o with
  | build text => exact Instance.onTemplate_ends (Template.build_moves text i.template)
  | setGrammar source =>
    exact Instance.onTemplate_ends ((Template.setGrammar_still source i.template).mono
      (fun _ _ h => .inl h) fun _ _ h => h)
  | setMetadata m => exact Instance.onTemplate_ends (ends_change (.inr (.inl rfl)))
  | parse text ctx file =>
    exact hdiscard (Instance.onTemplate_ends ((Template.read_ends text ctx file i.template).mono
      (fun _ _ h => .inl (.of_lazily h)) fun _ _ h => .of_lazily h))
  | setData data =>
    exact (Instance.setData_ends data i).mono (fun _ _ h => .inl (.of_eq h)) fun _ _ h => .of_eq h
  | readData text clock file zones =>
    exact hdiscard ((Instance.read_ends text clock file zones i).mono
      (fun _ _ h => .inl (.of_lazily h)) fun _ _ h => .of_lazily h)
  | nodes =>
    exact hdiscard (Instance.onTemplate_ends ((Template.nodes_ends i.template).mono
      (fun _ _ h => .inl (.of_lazily h)) fun _ _ h => .of_lazily h))
  | hash => exact hdiscard (Instance.onTemplate_ends (Template.hash_moves i.template))
  | files includeLogic => exact Ends.of_state (ends_pure (.inl (.refl _)))
  | archive language includeLogic =>
    exact hdiscard (Instance.onTemplate_ends ((Template.archive_ends language includeLogic
      i.template).mono (fun _ _ h => .inl (.of_eq h)) fun _ _ h => .of_eq h))
  | draft options =>
    refine hdiscard ((Instance.draft_ends options i).mono ?_ ?_)
    · rintro _ _ ⟨t', h, rfl⟩
      exact .inl (.of_lazily h)
    · rintro _ _ ⟨t', h, rfl⟩
      exact .of_lazily h

/-! ### Steps -/

/-- What is done with a template and its instances: an edit, the request of a reader, an operation,
or a turn to another instance. -/
inductive Step where
  | edit (e : Template.Edit)
  | reader
  | operation (o : Operation)
  | turn (data : Option Value)

namespace Step

/-- The work of a step, without its answer. -/
def work : Step → Work Instance Unit
  | edit e => Instance.onTemplate (Template.change e.apply)
  | reader => do let _ ← Instance.onTemplate Template.reader
  | operation o => o.work
  | turn data => Work.change fun i => { i with data }

/-- **One step** moves the template, and leaves it as it is if it fails. -/
theorem ends (k : Step) (i : Instance) :
    k.work.Ends i (fun _ i' => i.template.Moves i'.template)
      fun _ i' => i.template.Still i'.template := by
  cases k with
  | edit e => exact Instance.onTemplate_ends (Template.change_moves e i.template)
  | reader =>
    have hreader : (Instance.onTemplate Template.reader).Ends i
        (fun _ i' => i.template.Moves i'.template) fun _ i' => i.template.Still i'.template :=
      Instance.onTemplate_ends ((Template.reader_still i.template).mono (fun _ _ h => .inl h)
        fun _ _ h => h)
    exact hreader.bind (fun _ _ h => ends_pure h) fun _ _ h => h
  | operation o => exact o.moves i
  | turn data => exact ends_change (.inl (.refl _))

/-- An instance and a session after a step, whether it succeeds or not. -/
def perform (x : Instance × Session) (k : Step) : Instance × Session :=
  (k.work.run x.1 x.2).2

/-- An instance and a session after steps, one after another. -/
def performAll (steps : List Step) (x : Instance × Session) : Instance × Session :=
  steps.foldl perform x

theorem perform_moves (x : Instance × Session) (k : Step) :
    x.1.template.Moves (perform x k).1.template := by
  rcases hrun : k.work.run x.1 x.2 with ⟨f | _, i, s⟩
  · have h : perform x k = (i, s) := congrArg Prod.snd hrun
    exact h ▸ .inl ((k.ends x.1).error hrun)
  · have h : perform x k = (i, s) := congrArg Prod.snd hrun
    exact h ▸ (k.ends x.1).ok hrun

/-- **A run of steps** keeps no digest but that of the contents. -/
theorem digested_performAll (steps : List Step) {x : Instance × Session}
    (h : x.1.template.Digested) : (performAll steps x).1.template.Digested := by
  induction steps generalizing x with
  | nil => exact h
  | cons k steps ih => exact ih ((perform_moves x k).digested h)

end Step

namespace Template

open Package Step

/-- **The digest is never out of date.** Whatever steps are taken with a template and its instances,
failed ones among them, its digest is the one of the models, the markup, the scripts and the
metadata that it has by then; and a step that fails leaves these as they are. -/
theorem hash_current {σ : Type} {env : Environment} {parts : Parts} {state : σ}
    {session : Session} {t : Template} (hmade : ((ofParts env parts).run state session).1 = .ok t)
    (data : Option Value) (steps : List Step) (session' : Session) :
    let x := performAll steps (⟨t, data⟩, session')
    (∀ s, (hash.run x.1.template s).1 =
        .ok (Package.digest (contents (x.1.template.models.map Prod.snd) x.1.template.markup
          x.1.template.scripts x.1.template.metadata))) ∧
      ∀ (k : Step) (f : Fault) (i : Instance) (s : Session), k.work.run x.1 x.2 = (.error f, i, s) →
        i.template.models = x.1.template.models ∧ i.template.markup = x.1.template.markup ∧
          i.template.scripts = x.1.template.scripts ∧
          i.template.metadata = x.1.template.metadata := by
  intro x
  have hnone : t.digest = none := by
    obtain ⟨s, hs⟩ := yields_ofParts env parts state session
    rw [hs] at hmade
    obtain ⟨metadata, -, h⟩ := Outcome.bind_eq_ok.mp hmade
    obtain ⟨catalog, -, h⟩ := Outcome.bind_eq_ok.mp h
    cases h
    rfl
  have hfresh : t.Digested := by
    intro d hd
    rw [hnone] at hd
    cases hd
  refine ⟨run_hash_digested (digested_performAll steps hfresh), fun k f i s hrun => ?_⟩
  have hstill := (k.ends x.1).error hrun
  exact ⟨hstill.models, hstill.markup, hstill.scripts, hstill.metadata⟩

end Template

/-! ### Leases that are edited -/

namespace Lease

open Package Shape Template Step

def parts : Parts where
  package := info.toValue
  readme := .text "Leases"
  samples := samplesValue template.metadata.samples
  request := request
  models := template.models
  markup := template.markup
  scripts := template.scripts

/-- The digest is made, samples are refused, the readme is replaced, keywords are refused. -/
def edits : List Step :=
  [.operation .hash, .edit (.samples .null), .edit (.readme (some "Rents")),
    .edit (.keywords (.int 3))]

theorem run_parts : ((ofParts environment parts).run () {}).1 = .ok template := by
  obtain ⟨s, hs⟩ := yields_ofParts environment parts () {}
  have hvalid : info.Valid := ⟨by decide +kernel, by decide +kernel, ["rent"], rfl⟩
  have hrequest : MaybeObject (some request) := fun _ hw => .inr (Option.some.inj hw ▸ rfl)
  have hmetadata := (@Metadata.read_partsValue_iff _ hvalid (some "Leases")
    template.metadata.samples (some request) none template.metadata).mpr
      ⟨by decide +kernel, hrequest, nofun, rfl⟩
  rw [hs]
  exact Outcome.bind_eq_ok.mpr ⟨_, ofChecked_eq_ok.mpr hmetadata,
    Outcome.bind_eq_ok.mpr ⟨_, added_model, rfl⟩⟩

/-- The digest of the edited template of leases. -/
theorem hash_edits : ((ofParts environment parts).run () {}).1 = .ok template ∧
    let x := performAll edits (⟨template, none⟩, {})
    ∀ s, (hash.run x.1.template s).1 =
      .ok (Package.digest (contents (x.1.template.models.map Prod.snd) x.1.template.markup
        x.1.template.scripts x.1.template.metadata)) :=
  ⟨run_parts, (hash_current run_parts none edits {}).1⟩

end Lease

end Covenant
