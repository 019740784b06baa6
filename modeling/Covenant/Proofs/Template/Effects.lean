import Covenant.Proofs.Template.Registry
import Covenant.Template.Export
import Covenant.Template.Instance

/-!
What work on templates changes.

* `Work.Ends`: what holds of the result and the state that work ends with, with one lemma
  for each way to put work together.
* `Registry.set_ends`, `Registry.build_ends`: setting and building put a grammar into force
  or change nothing.
* `Template.nodes_ends`: asking for the nodes of the markup builds a grammar only if none
  was built from markup, or none is in force.
* `Instance.draft_ends`, `Instance.read_ends`: so do drafting and reading.
-/

namespace Covenant

/-! ### What work ends with -/

namespace Work

variable {σ τ α β : Type} {state : σ}

/-- Whatever the session, work on a state ends with such a result and such a state, or with
such a fault and such a state. -/
structure Ends (w : Work σ α) (state : σ) (ok : α → σ → Prop) (error : Fault → σ → Prop) :
    Prop where
  ok : ∀ {session a s session'}, w.run state session = (.ok a, s, session') → ok a s
  error : ∀ {session f s session'}, w.run state session = (.error f, s, session') → error f s

variable {ok : α → σ → Prop} {error : Fault → σ → Prop}

/-- What is promised about the ends of an operation can be weakened. -/
theorem Ends.mono {w : Work σ α} {ok' : α → σ → Prop} {error' : Fault → σ → Prop}
    (h : w.Ends state ok error) (hok : ∀ a s, ok a s → ok' a s)
    (herror : ∀ f s, error f s → error' f s) : w.Ends state ok' error' :=
  ⟨fun hrun => hok _ _ (h.ok hrun), fun hrun => herror _ _ (h.error hrun)⟩

/-- An operation that always runs to the same outcome and state ends there. -/
theorem ends_of_run {w : Work σ α} {o : Outcome α} {s : σ}
    (hrun : ∀ session, ∃ session', w.run state session = (o, s, session'))
    (hok : ∀ a, o = .ok a → ok a s) (herror : ∀ f, o = .error f → error f s) :
    w.Ends state ok error := by
  constructor
  · intro session a s' session' h
    obtain ⟨session'', hrun⟩ := hrun session
    cases hrun.symm.trans h
    exact hok a rfl
  · intro session f s' session' h
    obtain ⟨session'', hrun⟩ := hrun session
    cases hrun.symm.trans h
    exact herror f rfl

/-- **Work after work** starts where the first ends. -/
theorem Ends.bind {w : Work σ α} {k : α → Work σ β} {ok' : β → σ → Prop}
    {error' : Fault → σ → Prop} (hw : w.Ends state ok error)
    (hok : ∀ a s, ok a s → (k a).Ends s ok' error') (herror : ∀ f s, error f s → error' f s) :
    (w >>= k).Ends state ok' error' := by
  constructor
  · intro session b s session' h
    rw [run_bind] at h
    rcases hrun : w.run state session with ⟨f | a, s₁, session₁⟩
    all_goals rw [hrun] at h
    · cases h
    · exact (hok a s₁ (hw.ok hrun)).ok h
  · intro session f s session' h
    rw [run_bind] at h
    rcases hrun : w.run state session with ⟨f | a, s₁, session₁⟩
    all_goals rw [hrun] at h
    · cases h
      exact herror _ _ (hw.error hrun)
    · exact (hok a s₁ (hw.ok hrun)).error h

/-- Work that succeeds. -/
theorem ends_of_ok {w : Work σ α} {a : α} {s : σ}
    (hrun : ∀ session, ∃ session', w.run state session = (.ok a, s, session')) (h : ok a s) :
    w.Ends state ok error :=
  ends_of_run hrun (fun _ ha => Except.ok.inj ha ▸ h) fun _ hf => by cases hf

theorem ends_pure {a : α} (h : ok a state) : (pure a : Work σ α).Ends state ok error :=
  ends_of_ok (fun session => ⟨session, rfl⟩) h

theorem ends_throw {f : Fault} (h : error f state) : (throw f : Work σ α).Ends state ok error :=
  ends_of_run (o := .error f) (fun session => ⟨session, rfl⟩) (fun _ ha => by cases ha)
    fun _ hf => Except.error.inj hf ▸ h

theorem ends_ofOutcome {o : Outcome α} (hok : ∀ a, o = .ok a → ok a state)
    (herror : ∀ f, o = .error f → error f state) : (ofOutcome o).Ends state ok error :=
  ends_of_run (fun session => ⟨session, rfl⟩) hok herror

theorem ends_state {ok : σ → σ → Prop} (h : ok state state) : Work.state.Ends state ok error :=
  ends_of_ok (fun session => ⟨session, rfl⟩) h

theorem ends_change {f : σ → σ} {ok : Unit → σ → Prop} (h : ok () (f state)) :
    (Work.change f).Ends state ok error :=
  ends_of_ok (fun session => ⟨session, rfl⟩) h

theorem ends_put {s : σ} {ok : Unit → σ → Prop} (h : ok () s) :
    (Work.put s).Ends state ok error :=
  ends_of_ok (fun session => ⟨session, rfl⟩) h

/-- A line of the journal changes no state. -/
theorem ends_note {severity : Journal.Severity} {part message : String}
    {report : Option Fault.Report} {ok : Unit → σ → Prop} (h : ok () state) :
    (note severity part message report).Ends state ok error :=
  ends_of_ok (fun _ => ⟨_, rfl⟩) h

/-- Issuing identifiers changes the session only. -/
theorem ends_issuing {f : Nat → Outcome α × Nat} (hok : ∀ n a, (f n).1 = .ok a → ok a state)
    (herror : ∀ f, error f state) : (issuing f).Ends state ok error := by
  constructor
  · intro session a s session' h
    cases (Prod.mk.inj (Prod.mk.inj h).2).1
    exact hok session.issued a (Prod.mk.inj h).1
  · intro session a s session' h
    cases (Prod.mk.inj (Prod.mk.inj h).2).1
    exact herror a

/-- The scope under which lines are written does not touch the state. -/
theorem Ends.within {w : Work σ α} (h : w.Ends state ok error) (scope : Journal.Scope) :
    (Work.within scope w).Ends state ok error := by
  constructor
  · intro session a s session' hrun
    obtain ⟨ha, hs⟩ := Prod.mk.inj hrun
    exact h.ok (Prod.ext ha (Prod.ext (Prod.mk.inj hs).1 rfl))
  · intro session a s session' hrun
    obtain ⟨ha, hs⟩ := Prod.mk.inj hrun
    exact h.error (Prod.ext ha (Prod.ext (Prod.mk.inj hs).1 rfl))

/-- An operation on a part ends as it does on the part alone, the rest being kept. -/
theorem Ends.zoom {part : σ → τ} {withPart : τ → σ → σ} {w : Work τ α}
    (h : w.Ends (part state) (fun a t => ok a (withPart t state))
      fun f t => error f (withPart t state)) : (Work.zoom part withPart w).Ends state ok error := by
  constructor
  · intro session a s session' hrun
    obtain ⟨ha, hs⟩ := Prod.mk.inj hrun
    rw [← (Prod.mk.inj hs).1]
    exact h.ok (Prod.ext ha rfl)
  · intro session a s session' hrun
    obtain ⟨ha, hs⟩ := Prod.mk.inj hrun
    rw [← (Prod.mk.inj hs).1]
    exact h.error (Prod.ext ha rfl)

/-- Noting a fault passes it on as it is. -/
theorem Ends.noteFault {w : Work σ α} (h : w.Ends state ok error) (part lead : String) :
    (Work.noteFault part lead w).Ends state ok error := by
  constructor
  · intro session a s session' hrun
    rcases hw : w.run state session with ⟨o, s₁, session₁⟩
    obtain ⟨session₂, hnote⟩ := run_noteFault part lead hw
    cases hnote.symm.trans hrun
    exact h.ok hw
  · intro session f s session' hrun
    rcases hw : w.run state session with ⟨o, s₁, session₁⟩
    obtain ⟨session₂, hnote⟩ := run_noteFault part lead hw
    cases hnote.symm.trans hrun
    exact h.error hw

/-- The run of an operation on a part, outcome and session included. -/
theorem run_zoom {part : σ → τ} {withPart : τ → σ → σ} {w : Work τ α} {session s : Session}
    {o : Outcome α} {t : τ} (h : w.run (part state) session = (o, t, s)) :
    (Work.zoom part withPart w).run state session = (o, withPart t state, s) := by
  have hrun : (Work.zoom part withPart w).run state session
      = ((w.run (part state) session).1, withPart (w.run (part state) session).2.1 state,
        (w.run (part state) session).2.2) := rfl
  rw [hrun, h]

/-- The run of an operation under a scope; the session gets its own scope back. -/
theorem run_within {w : Work σ α} {scope : Journal.Scope} {session s : Session} {o : Outcome α}
    {state' : σ} (h : w.run state { session with scope } = (o, state', s)) :
    (Work.within scope w).run state session = (o, state', { s with scope := session.scope }) := by
  have hrun : (Work.within scope w).run state session
      = ((w.run state { session with scope }).1, (w.run state { session with scope }).2.1,
        { (w.run state { session with scope }).2.2 with scope := session.scope }) := rfl
  rw [hrun, h]

/-! What comes after a step that always succeeds. -/

/-- Reading the state first: what follows is given the state there is. -/
theorem Ends.of_state {k : σ → Work σ α} (h : (k state).Ends state ok error) :
    (Work.state >>= k).Ends state ok error := by
  have hstate : Work.state.Ends state (fun t s => t = state ∧ s = state) fun _ _ => False :=
    ends_state ⟨rfl, rfl⟩
  refine hstate.bind ?_ fun _ _ h => h.elim
  rintro t s ⟨rfl, rfl⟩
  exact h

/-- Changing the state first: what follows starts from the changed one. -/
theorem Ends.of_change {f : σ → σ} {k : Unit → Work σ α} (h : (k ()).Ends (f state) ok error) :
    (Work.change f >>= k).Ends state ok error := by
  have hchange : (Work.change f).Ends state (fun _ s => s = f state) fun _ _ => False :=
    ends_change rfl
  refine hchange.bind ?_ fun _ _ h => h.elim
  rintro _ s rfl
  exact h

theorem Ends.of_put {s : σ} {k : Unit → Work σ α} (h : (k ()).Ends s ok error) :
    (Work.put s >>= k).Ends state ok error :=
  Ends.of_change h

theorem Ends.of_note {severity : Journal.Severity} {part message : String}
    {report : Option Fault.Report} {k : Unit → Work σ α} (h : (k ()).Ends state ok error) :
    (note severity part message report >>= k).Ends state ok error := by
  have hnote : (note severity part message report).Ends state (fun _ s => s = state)
      fun _ _ => False :=
    ends_note rfl
  refine hnote.bind ?_ fun _ _ h => h.elim
  rintro _ s rfl
  exact h

/-- Work after a result that changes nothing. -/
theorem Ends.of_ofOutcome {o : Outcome β} {k : β → Work σ α}
    (hok : ∀ a, o = .ok a → (k a).Ends state ok error)
    (herror : ∀ f, o = .error f → error f state) : (ofOutcome o >>= k).Ends state ok error := by
  have houtcome : (ofOutcome o).Ends state (fun a s => o = .ok a ∧ s = state)
      fun f s => o = .error f ∧ s = state :=
    ends_ofOutcome (fun _ h => ⟨h, rfl⟩) fun _ h => ⟨h, rfl⟩
  refine houtcome.bind ?_ ?_
  · rintro a s ⟨ha, rfl⟩
    exact hok a ha
  · rintro f s ⟨hf, rfl⟩
    exact herror f hf

end Work

open Work

/-! ### Registries -/

namespace Registry

/-- Markup is built into a registry, which becomes another. -/
def Builds (c : Markup.Compiler) (type : SchemaType) (text : String) (r r' : Registry) : Prop :=
  ∃ s s', (build c type text).run r s = (.ok (), r', s')

/-- **Setting a grammar** puts that of the source into force, or changes nothing. -/
theorem set_ends (file source : String) (r : Registry) :
    (Registry.set file source).Ends r
      (fun _ r' => ∃ g, readSource file source = .ok g ∧ r' = { r with grammar := some g })
      fun _ r' => r' = r := by
  have hread : (Work.ofOutcome (readSource file source)).Ends r
      (fun g r' => readSource file source = .ok g ∧ r' = r) fun _ r' => r' = r :=
    ends_ofOutcome (fun _ h => ⟨h, rfl⟩) fun _ _ => rfl
  unfold Registry.set
  refine (hread.noteFault _ _).bind ?_ fun _ _ h => h
  rintro g _ ⟨hg, rfl⟩
  exact Ends.of_change (ends_note ⟨g, hg, rfl⟩)

/-- The nodes of markup, and the source of the rules that can be made for them. -/
def Generates (c : Markup.Compiler) (type : SchemaType) (markup : String)
    (x : List Markup.Node × String) : Prop :=
  Markup.read markup (some c.settings.grammarFile) c.settings.joinSeparator = .ok x.1 ∧
    ∃ issued set, (c.compile x.1 type issued).1 = .ok set ∧ set.write = .ok x.2

/-- Making the rules of markup does not touch what it is made for. -/
theorem generate_ends {σ : Type} (c : Markup.Compiler) (type : SchemaType) (markup : String)
    (state : σ) :
    (generate c type markup).Ends state (fun x s => state = s ∧ Generates c type markup x)
      fun _ s => state = s := by
  have hcompile : ∀ nodes, (compile c nodes type : Work σ RuleSet).Ends state
      (fun set s => state = s ∧ ∃ issued, (c.compile nodes type issued).1 = .ok set)
      fun _ s => state = s := by
    intro nodes
    unfold compile
    have hissuing : (issuing (c.nodeRules nodes type)).Ends state
        (fun own s => state = s ∧ ∃ n, (c.nodeRules nodes type n).1 = .ok own)
        fun _ s => state = s :=
      ends_issuing (fun n own hown => ⟨rfl, n, hown⟩) fun _ => rfl
    refine hissuing.bind ?_ fun _ _ h => h
    rintro own _ ⟨rfl, n, hown⟩
    refine Ends.of_ofOutcome (fun types htypes => Ends.of_note ?_) fun _ _ => rfl
    refine Ends.of_ofOutcome (fun set hset => Ends.of_note (ends_pure ⟨rfl, n, ?_⟩)) fun _ _ => rfl
    exact Outcome.bind_eq_ok.mpr ⟨own, hown, Outcome.bind_eq_ok.mpr ⟨types, htypes, hset⟩⟩
  unfold generate
  refine Ends.of_ofOutcome (fun nodes hnodes => (hcompile nodes).bind ?_ fun _ _ h => h) fun _ _ => rfl
  rintro set _ ⟨rfl, n, hset⟩
  exact Ends.of_ofOutcome (fun source hsource => ends_pure ⟨rfl, hnodes, n, set, hset, hsource⟩)
    fun _ _ => rfl

/-- A grammar that is read from the source of the rules that can be made for markup. -/
def Made (c : Markup.Compiler) (type : SchemaType) (text : String) (g : Grammar) : Prop :=
  ∃ nodes source, Generates c type (Document.read text).write (nodes, source) ∧
    readSource c.settings.grammarFile source = .ok g

/-- **Building a grammar** puts the one of the markup into force and keeps the markup with its
nodes, or changes nothing. -/
theorem build_ends (c : Markup.Compiler) (type : SchemaType) (text : String) (r : Registry) :
    (build c type text).Ends r (fun _ r' => Builds c type text r r' ∧ ∃ g nodes source,
        r' = ⟨some g, some ⟨(Document.read text).write, nodes⟩⟩ ∧
          Generates c type (Document.read text).write (nodes, source) ∧
          readSource c.settings.grammarFile source = .ok g) fun _ r' => r' = r := by
  have hslots : (build c type text).Ends r (fun _ r' => ∃ g nodes source,
      r' = ⟨some g, some ⟨(Document.read text).write, nodes⟩⟩ ∧
        Generates c type (Document.read text).write (nodes, source) ∧
        readSource c.settings.grammarFile source = .ok g) fun _ r' => r' = r := by
    unfold build
    refine Ends.of_note ?_
    refine ((generate_ends c type _ r).noteFault _ _).bind ?_ fun _ _ h => h.symm
    rintro ⟨nodes, source⟩ _ ⟨rfl, hgenerates⟩
    refine Ends.of_note ((set_ends _ source r).bind ?_ fun _ _ h => h)
    rintro _ _ ⟨g, hg, rfl⟩
    exact ends_change ⟨g, nodes, source, rfl, hgenerates, hg⟩
  exact ⟨fun h => ⟨⟨_, _, h⟩, hslots.ok h⟩, hslots.error⟩

/-- What building has put into a registry. -/
theorem Builds.installed {c : Markup.Compiler} {type : SchemaType} {text : String}
    {r r' : Registry} (h : Builds c type text r r') : ∃ g nodes source,
      r' = ⟨some g, some ⟨(Document.read text).write, nodes⟩⟩ ∧
        Generates c type (Document.read text).write (nodes, source) ∧
        readSource c.settings.grammarFile source = .ok g := by
  obtain ⟨s, s', hrun⟩ := h
  exact ((build_ends c type text r).ok hrun).2

/-- A build that ends well leaves a grammar made from the text and its rule set. -/
theorem Builds.made {c : Markup.Compiler} {type : SchemaType} {text : String} {r r' : Registry}
    (h : Builds c type text r r') : ∃ g b, r' = ⟨some g, some b⟩ ∧ Made c type text g := by
  obtain ⟨g, nodes, source, hr', hgenerates, hsource⟩ := h.installed
  exact ⟨g, _, hr', nodes, source, hgenerates, hsource⟩

theorem Builds.spec {c : Markup.Compiler} {type : SchemaType} {text : String} {r r' : Registry}
    (h : Builds c type text r r') : ∃ g b, r' = ⟨some g, some b⟩ := by
  obtain ⟨g, b, hr', -⟩ := h.made
  exact ⟨g, b, hr'⟩

/-- A source that is read is put into force. -/
theorem run_set_ok {file source : String} {g : Grammar} (h : readSource file source = .ok g)
    (r : Registry) (session : Session) :
    ∃ s, s.issued = session.issued ∧
      (Registry.set file source).run r session = (.ok (), { r with grammar := some g }, s) := by
  have hgrammar : (noteFault "registry" "Grammar compilation failed: "
      (ofOutcome (readSource file source))).run r session = (.ok g, r, session) :=
    run_tryCatch_ok (show (ofOutcome (readSource file source)).run r session = _ from
      Prod.ext h rfl) _
  unfold Registry.set
  obtain ⟨s, hs, hnote⟩ := run_note .debug "registry" ("Grammar set: " ++ countRules g.rules) none
    { r with grammar := some g } session
  rw [run_bind_ok hgrammar]
  exact ⟨s, hs, hnote⟩

/-- Markup is built into a registry when rules can be made for it and their source is usable. -/
theorem run_build {c : Markup.Compiler} {type : SchemaType} {text source : String}
    {nodes : List Markup.Node} {set : RuleSet} {g : Grammar} {session : Session}
    (hread : Markup.read (Document.read text).write (some c.settings.grammarFile)
      c.settings.joinSeparator = .ok nodes)
    (hset : (c.compile nodes type session.issued).1 = .ok set) (hwrite : set.write = .ok source)
    (hsource : readSource c.settings.grammarFile source = .ok g) (r : Registry) :
    ∃ s, (build c type text).run r session
      = (.ok (), ⟨some g, some ⟨(Document.read text).write, nodes⟩⟩, s) := by
  obtain ⟨s, hs, hbuilding⟩ := run_note .debug "registry"
    ("Building grammar from template markup:\n" ++ (Document.read text).write) none r session
  obtain ⟨_, hgenerate⟩ := run_generate r s hread (hs.symm ▸ hset) hwrite
  obtain ⟨s, hgenerate⟩ := run_noteFault "registry" "Grammar build failed: " hgenerate
  obtain ⟨s', _, hgenerated⟩ := run_note .debug "registry"
    ("Generated grammar:\n" ++ source) none r s
  obtain ⟨s, _, hset⟩ := run_set_ok hsource r s'
  unfold build
  rw [run_bind_ok hbuilding, run_bind_ok hgenerate]
  simp only
  rw [run_bind_ok hgenerated, run_bind_ok hset]
  exact ⟨_, rfl⟩

/-- Reading a text leaves the registry as it is. -/
theorem read_ends (text : String) (ctx : ReadingContext) (file : Option String) (r : Registry) :
    (Registry.read text ctx file).Ends r
      (fun v r' => r' = r ∧ (r.current >>= fun g => g.read text ctx file) = .ok v)
      fun f r' => r' = r ∧ (r.current >>= fun g => g.read text ctx file) = .error f := by
  unfold Registry.read
  refine Ends.of_state ?_
  cases r.current with
  | error f =>
    refine Ends.of_ofOutcome (fun _ h => by cases h) ?_
    rintro _ ⟨⟩
    exact ⟨rfl, rfl⟩
  | ok g =>
    refine Ends.of_ofOutcome ?_ fun _ h => by cases h
    rintro _ ⟨⟩
    exact Ends.of_ofOutcome (fun v hv => Ends.of_note (ends_pure ⟨rfl, hv⟩)) fun _ h => ⟨rfl, h⟩

end Registry

/-! ### Templates -/

namespace Template

/-- What the registry of a template becomes when a grammar is built from its markup. -/
def Rebuilds (t : Template) (r' : Registry) : Prop :=
  ∃ markup type, t.markup = some markup ∧ t.type = .ok type ∧
    Registry.Builds t.compiler type markup t.registry r'

/-- Work on the registry of a template, which has to model a type. -/
theorem onRegistry_ends {α : Type} {w : SchemaType → Work Registry α} {t : Template}
    {ok : α → Template → Prop} {error : Fault → Template → Prop}
    (htype : ∀ type, t.type = .ok type → (w type).Ends t.registry
      (fun a r' => ok a { t with registry := r' }) fun f r' => error f { t with registry := r' })
    (herror : ∀ f, t.type = .error f → error f t) : (onRegistry w).Ends t ok error := by
  unfold onRegistry
  exact Ends.of_state (Ends.of_ofOutcome (fun type h => Ends.zoom (htype type h)) herror)

/-- Building a grammar from markup gives the template this markup, or changes nothing. -/
theorem build_ends (text : Option String) (t : Template) :
    (Template.build text).Ends t
      (fun _ t' => ∃ markup type r', text.or t.markup = some markup ∧ t.type = .ok type ∧
        Registry.Builds t.compiler type markup t.registry r' ∧
        t' = { t with registry := r' }.withMarkup markup)
      fun _ t' => t' = t := by
  unfold Template.build
  refine Ends.of_state ?_
  cases hmarkup : text.or t.markup with
  | none => exact ends_throw rfl
  | some markup =>
    have hbuild : (onRegistry fun type => Registry.build t.compiler type markup).Ends t
        (fun _ t' => ∃ type r', t.type = .ok type ∧
          Registry.Builds t.compiler type markup t.registry r' ∧ t' = { t with registry := r' })
        fun _ t' => t' = t := by
      refine onRegistry_ends (fun type htype => ?_) fun _ _ => rfl
      exact (Registry.build_ends t.compiler type markup t.registry).mono
        (fun _ r' h => ⟨type, r', htype, h.1, rfl⟩) fun _ _ h => h ▸ rfl
    refine (hbuild.within _).bind ?_ fun _ _ h => h
    rintro _ _ ⟨type, r', htype, hbuilds, rfl⟩
    exact ends_change ⟨markup, type, r', rfl, htype, hbuilds, rfl⟩

/-- Building a grammar from the markup of the template changes its registry only. -/
theorem rebuild_ends (t : Template) :
    (Template.build).Ends t (fun _ t' => ∃ r', t.Rebuilds r' ∧ t' = { t with registry := r' })
      fun _ t' => t' = t := by
  refine (build_ends none t).mono ?_ fun _ _ h => h
  rintro _ _ ⟨markup, type, r', hmarkup, htype, hbuilds, rfl⟩
  exact ⟨r', ⟨markup, type, hmarkup, htype, hbuilds⟩, if_pos hmarkup⟩

/-- Ensuring a grammar keeps one that is there and builds one where there is none. -/
theorem ensureGrammar_ends (t : Template) :
    ensureGrammar.Ends t
      (fun _ t' => (t.registry.isBuilt = true ∧ t' = t) ∨
        t.registry.isBuilt = false ∧ ∃ r', t.Rebuilds r' ∧ t' = { t with registry := r' })
      fun _ t' => t' = t := by
  unfold ensureGrammar
  refine Ends.of_state ?_
  cases hbuilt : t.registry.isBuilt with
  | true => exact ends_pure (.inl ⟨rfl, rfl⟩)
  | false =>
    cases hmarkup : t.markup.isNone with
    | true => exact ends_throw rfl
    | false =>
      exact (rebuild_ends t).mono (fun _ _ h => .inr ⟨rfl, h⟩) fun _ _ h => h

/-- What reading lazily makes of a template: it stays as it is, or a grammar is built from its
markup because none is in force, or none was built so far. -/
def Lazily (t t' : Template) : Prop :=
  t' = t ∨ (t.registry.grammar = none ∨ t.registry.blueprint = none) ∧
    ∃ r', t.Rebuilds r' ∧ t' = { t with registry := r' }

theorem grammar_eq_none {r : Registry} (h : r.isBuilt = false) : r.grammar = none := by
  simpa [Registry.isBuilt] using h

theorem Rebuilds.spec {t : Template} {r' : Registry} (h : t.Rebuilds r') :
    ∃ g b, r' = ⟨some g, some b⟩ := by
  obtain ⟨_, _, _, _, h⟩ := h
  exact h.spec

/-- **The nodes of the markup** are at hand if a grammar was built from markup; otherwise it is
built now. -/
theorem nodes_ends (t : Template) : nodes.Ends t (fun _ => t.Lazily) fun _ => t.Lazily := by
  unfold nodes
  refine (ensureGrammar_ends t).bind ?_ fun _ _ h => .inl h
  rintro _ t' (⟨_, rfl⟩ | ⟨hbuilt, r', hr', rfl⟩)
  · refine Ends.of_state ?_
    cases hblueprint : t'.registry.blueprint with
    | some b => exact ends_pure (.inl rfl)
    | none =>
      refine Ends.of_state ?_
      cases hmarkup : t'.markup.isNone with
      | true => exact ends_throw (.inl rfl)
      | false =>
        refine (rebuild_ends t').bind ?_ fun _ _ h => .inl h
        rintro _ _ ⟨r', hr', rfl⟩
        obtain ⟨g, b, rfl⟩ := hr'.spec
        exact Ends.of_state (ends_pure (.inr ⟨.inr hblueprint, _, hr', rfl⟩))
  · obtain ⟨g, b, rfl⟩ := hr'.spec
    exact Ends.of_state (ends_pure (.inr ⟨.inl (grammar_eq_none hbuilt), _, hr', rfl⟩))

/-- With a grammar there, ensuring one does nothing. -/
theorem run_ensureGrammar {t : Template} (h : t.registry.isBuilt = true) (s : Session) :
    ensureGrammar.run t s = (.ok (), t, s) := by
  unfold ensureGrammar
  rw [run_bind_ok (run_state t s), h]
  rfl

/-- **With a grammar in force and none built from markup**, asking for the nodes is building. -/
theorem run_nodes {t : Template} (hbuilt : t.registry.isBuilt = true)
    (hblueprint : t.registry.blueprint = none) (hmarkup : t.markup.isSome = true) (s : Session) :
    (nodes.run t s).2 = (Template.build.run t s).2 := by
  have hstate : ∀ t' s', Work.state.run t' s' = ((.ok t', t', s') : Outcome Template × _ × _) :=
    fun _ _ => rfl
  have hsome : t.markup.isNone = false := by
    rw [← Option.not_isSome, hmarkup]
    rfl
  unfold nodes
  rw [run_bind_ok (run_ensureGrammar hbuilt s), run_bind_ok (hstate t s), hblueprint]
  simp only
  rw [run_bind_ok (hstate t s), hsome]
  simp only [Bool.false_eq_true, if_false]
  rcases hbuild : Template.build.run t s with ⟨_ | _, t', s'⟩
  · rw [run_bind_error hbuild]
  · rw [run_bind_ok hbuild, run_bind_ok (hstate t' s')]
    cases t'.registry.blueprint <;> rfl

/-- An operation on the registry runs on the template with the rest kept. -/
theorem run_onRegistry {α : Type} {w : SchemaType → Work Registry α} {t : Template}
    {type : SchemaType} {o : Outcome α} {r' : Registry} {s s' : Session} (htype : t.type = .ok type)
    (h : (w type).run t.registry s = (o, r', s')) :
    (onRegistry w).run t s = (o, { t with registry := r' }, s') := by
  unfold onRegistry
  rw [run_bind_ok (run_state t _), run_bind_ok (run_ofOutcome htype t _)]
  exact run_zoom h

/-- A template whose grammar is set from a source that is read. -/
theorem run_setGrammar {t : Template} {type : SchemaType} {source : String} {g : Grammar}
    (htype : t.type = .ok type) (hg : Registry.readSource t.settings.grammarFile source = .ok g)
    (s : Session) :
    ∃ s', s'.issued = s.issued ∧ (Template.setGrammar source).run t s
      = (.ok (), { t with registry := { t.registry with grammar := some g } }, s') := by
  obtain ⟨s', hissued, hset⟩ := Registry.run_set_ok hg t.registry { s with scope := t.scope }
  have hwork : (onRegistry fun _ => Registry.set t.settings.grammarFile source).run t
      { s with scope := t.scope } = _ := run_onRegistry htype hset
  unfold Template.setGrammar
  rw [run_bind_ok (run_state t s), run_within hwork]
  exact ⟨{ s' with scope := s.scope }, hissued, rfl⟩

/-- A template whose markup can be built has the grammar of it afterwards. -/
theorem run_rebuild {t : Template} {markup : String} {type : SchemaType} {r' : Registry}
    {s : Session} (hmarkup : t.markup = some markup) (htype : t.type = .ok type)
    (hbuild : ∀ s', s'.issued = s.issued → ∃ s'',
      (Registry.build t.compiler type markup).run t.registry s' = (.ok (), r', s'')) :
    ∃ s', Template.build.run t s = (.ok (), { t with registry := r' }, s') := by
  let scope := t.scope (some t.settings.grammarFile)
  obtain ⟨s', hbuild⟩ := hbuild { s with scope } rfl
  have hwork : (onRegistry fun type => Registry.build t.compiler type markup).run t
      { s with scope } = (.ok (), { t with registry := r' }, s') :=
    run_onRegistry htype hbuild
  have hwithin : (Work.within scope (onRegistry fun type =>
      Registry.build t.compiler type markup)).run t s
        = (.ok (), { t with registry := r' }, { s' with scope := s.scope }) :=
    run_within hwork
  have hmarkup' : { t with registry := r' }.withMarkup markup = { t with registry := r' } :=
    if_pos hmarkup
  have hchange : ∀ s', (Work.change fun t => t.withMarkup markup).run { t with registry := r' } s'
      = ((.ok (), { t with registry := r' }, s') : Outcome Unit × _ × _) :=
    fun s' => Prod.ext rfl (Prod.ext hmarkup' rfl)
  have hor : none.or t.markup = some markup := hmarkup
  unfold Template.build
  rw [run_bind_ok (run_state t s), hor]
  simp only
  rw [run_bind_ok hwithin, hchange]
  exact ⟨_, rfl⟩

/-- **Reading a text** builds a grammar only if none is in force. The answer is that of the
grammar. -/
theorem read_ends (text : String) (ctx : ReadingContext) (file : Option String) (t : Template) :
    (Template.read text ctx file).Ends t (fun _ => t.Lazily) fun _ => t.Lazily := by
  have hread : ∀ t' : Template, (onRegistry fun _ => Registry.read text ctx file).Ends t'
      (fun _ t'' => t'' = t') fun _ t'' => t'' = t' := fun t' =>
    onRegistry_ends (fun type _ => (Registry.read_ends text ctx file t'.registry).mono
      (fun _ _ h => h.1 ▸ rfl) fun _ _ h => h.1 ▸ rfl) fun _ _ => rfl
  unfold Template.read
  refine (ensureGrammar_ends t).bind ?_ fun _ _ h => .inl h
  rintro _ t' (⟨_, rfl⟩ | ⟨hbuilt, r', hr', rfl⟩)
  · exact (hread t').mono (fun _ _ h => .inl h) fun _ _ h => .inl h
  · have hlazily : t.Lazily { t with registry := r' } :=
      .inr ⟨.inl (grammar_eq_none hbuilt), r', hr', rfl⟩
    exact (hread _).mono (fun _ _ h => h ▸ hlazily) fun _ _ h => h ▸ hlazily

/-- **With a grammar in force** a text is read by it. -/
theorem run_read {t : Template} {g : Grammar} (hg : t.registry.grammar = some g) (text : String)
    (ctx : ReadingContext) (file : Option String) (s : Session) :
    ((Template.read text ctx file).run t s).1 = (t.type >>= fun _ => g.read text ctx file) := by
  have hcurrent : t.registry.current = .ok g := by
    rw [Registry.current, hg]
  have hread : (onRegistry fun _ => Registry.read text ctx file).Ends t
      (fun v _ => (t.type >>= fun _ => g.read text ctx file) = .ok v)
      fun f _ => (t.type >>= fun _ => g.read text ctx file) = .error f := by
    refine onRegistry_ends (fun type htype => ?_) fun f htype => by rw [htype]; rfl
    rw [htype]
    have hregistry := Registry.read_ends text ctx file t.registry
    rw [hcurrent] at hregistry
    exact hregistry.mono (fun _ _ h => h.2) fun _ _ h => h.2
  have hbuilt : t.registry.isBuilt = true := by
    rw [Registry.isBuilt, hg]
    rfl
  unfold Template.read
  rw [run_bind_ok (run_ensureGrammar hbuilt s)]
  rcases hrun : (onRegistry fun _ => Registry.read text ctx file).run t s with ⟨f | v, t', s'⟩
  · exact (hread.error hrun).symm
  · exact (hread.ok hrun).symm

/-- Asking for the digest may change the digest only. -/
theorem hash_ends (t : Template) :
    hash.Ends t (fun _ t' => ∃ d, t' = { t with digest := d }) fun _ t' => t' = t := by
  unfold hash
  refine Ends.of_state ?_
  cases hdigest : t.digest with
  | some d => exact ends_pure ⟨some d, by rw [← hdigest]⟩
  | none => exact Ends.of_put (ends_pure ⟨_, rfl⟩)

/-- Writing an archive leaves the template as it is. -/
theorem archive_ends (name : Option String) (includeLogic : Bool) (t : Template) :
    (archive name includeLogic).Ends t (fun _ t' => t' = t) fun _ t' => t' = t := by
  unfold archive
  refine Ends.of_state (Ends.of_ofOutcome (fun language _ => ?_) fun _ _ => rfl)
  refine Ends.of_ofOutcome (fun _ _ => ?_) fun _ _ => rfl
  have hnote : ∀ message, (Work.note .info "templates" message : Work Template Unit).Ends t
      (fun _ t' => t' = t) fun _ t' => t' = t :=
    fun _ => ends_note rfl
  refine ((hnote _).within _).bind ?_ fun _ _ h => h
  rintro _ _ rfl
  exact ends_pure rfl

end Template

/-! ### Instances -/

namespace Instance

/-- What work on the template makes of an instance. -/
theorem onTemplate_ends {α : Type} {w : Work Template α} {i : Instance}
    {ok : α → Instance → Prop} {error : Fault → Instance → Prop}
    (h : w.Ends i.template (fun a t => ok a { i with template := t })
      fun f t => error f { i with template := t }) : (onTemplate w).Ends i ok error :=
  Ends.zoom h

/-- An operation on the template runs on the instance with the rest kept. -/
theorem run_onTemplate {α : Type} {w : Work Template α} {i : Instance} {o : Outcome α}
    {t : Template} {session s : Session} (h : w.run i.template session = (o, t, s)) :
    (onTemplate w).run i session = (o, { i with template := t }, s) :=
  run_zoom h

def Lazily (i i' : Instance) : Prop :=
  ∃ t', i.template.Lazily t' ∧ i' = { i with template := t' }

/-- An instance is a lazy change of itself. -/
theorem Lazily.refl (i : Instance) : i.Lazily i :=
  ⟨i.template, .inl rfl, rfl⟩

/-- **Drafting** asks for the nodes of the markup and changes nothing else. -/
theorem draft_ends (options : Outcome DraftOptions) (i : Instance) :
    (draft options).Ends i (fun _ => i.Lazily) fun _ => i.Lazily := by
  have hnodes : (onTemplate Template.nodes).Ends i (fun _ => i.Lazily) fun _ => i.Lazily :=
    onTemplate_ends ((Template.nodes_ends i.template).mono (fun _ t' h => ⟨t', h, rfl⟩)
      fun _ t' h => ⟨t', h, rfl⟩)
  have hdocument : ∀ data, (document data).Ends i (fun _ => i.Lazily) fun _ => i.Lazily := by
    intro data
    unfold document
    refine hnodes.bind (fun nodes i' h => Ends.of_state ?_) fun _ _ h => h
    exact Ends.of_ofOutcome (fun _ _ => ends_ofOutcome (fun _ _ => h) fun _ _ => h) fun _ _ => h
  unfold draft
  refine Ends.of_state ?_
  cases i.data with
  | none => exact ends_throw (.refl i)
  | some data =>
    refine Ends.of_ofOutcome (fun options _ => Ends.within ?_ _) fun _ _ => .refl i
    exact (hdocument data).bind (fun _ _ h => ends_ofOutcome (fun _ _ => h) fun _ _ => h)
      fun _ _ h => h

/-- Setting data leaves the template as it is. -/
theorem setData_ends (data : Value) (i : Instance) :
    (setData data).Ends i (fun _ i' => i'.template = i.template)
      fun _ i' => i'.template = i.template := by
  have hcheck : (do
      Work.note .debug "templates" ("Setting data: " ++ Json.spaced data)
      Work.ofOutcome (i.template.checkData data)
      Work.change fun i => { i with data := some data } : Work Instance Unit).Ends i
      (fun _ i' => i'.template = i.template) fun _ i' => i'.template = i.template :=
    Ends.of_note (Ends.of_ofOutcome (fun _ _ => ends_change rfl) fun _ _ => rfl)
  unfold setData
  refine Ends.of_state (Ends.of_ofOutcome (fun type _ => ?_) fun _ _ => rfl)
  cases hclass : isOf type data with
  | true => exact hcheck
  | false => exact ends_throw rfl

/-- **Reading data** builds a grammar only if none is in force. -/
theorem read_ends (text : String) (clock : Option Int) (file : Option String)
    (zones : String → Option Zone) (i : Instance) :
    (Instance.read text clock file zones).Ends i (fun _ i' => i.template.Lazily i'.template)
      fun _ i' => i.template.Lazily i'.template := by
  have hextract : ∀ (i' : Instance) (d : Document) (ctx : ReadingContext),
      (onTemplate (Template.onRegistry fun type => Registry.extract type d ctx file)).Ends i'
        (fun _ i'' => i'' = i') fun _ i'' => i'' = i' := by
    intro i' d ctx
    refine onTemplate_ends (Template.onRegistry_ends (fun type _ => ?_) fun _ _ => rfl)
    unfold Registry.extract
    refine (Registry.read_ends d.write ctx file i'.template.registry).bind ?_
      fun _ _ h => h.1 ▸ rfl
    exact fun _ _ h => Ends.of_note (ends_pure (h.1 ▸ rfl))
  unfold Instance.read
  refine Ends.of_state (Ends.within ?_ _)
  have hensure : (onTemplate Template.ensureGrammar).Ends i
      (fun _ i' => i.template.Lazily i'.template) fun _ i' => i.template.Lazily i'.template := by
    refine onTemplate_ends ((Template.ensureGrammar_ends i.template).mono ?_ fun _ _ h => .inl h)
    rintro _ t' (⟨_, rfl⟩ | ⟨hbuilt, hr'⟩)
    · exact .inl rfl
    · exact .inr ⟨.inl (Template.grammar_eq_none hbuilt), hr'⟩
  refine hensure.bind (fun _ i' h => ?_) fun _ _ h => h
  refine (hextract i' _ _).bind (fun data i'' hi'' => ?_) fun _ _ hi'' => hi'' ▸ h
  refine (setData_ends data i'').bind (fun _ _ ht => ends_pure ?_) fun _ _ ht => ?_
  · rw [ht, hi'']
    exact h
  · rw [ht, hi'']
    exact h

end Instance

end Covenant
