import Covenant.Proofs.Markup.Reading
import Covenant.Proofs.Template.Effects

/-!
What drafting and other inspections of a template leave as it is.

* `Operation.ends`: what one operation makes of an instance.
* `Operation.sourced_performAll`, `Operation.inspected_performAll`: what operations one after
  another make of it.
* `Instance.inspect_keeps`: in every run, inspections leave the grammar in force as it is,
  unless the grammar was set from source and none was ever built from the markup.
-/

namespace Covenant

open Work

/-! ### Operations -/

/-- What can be done with an instance and its template. -/
inductive Operation where
  | build (text : Option String)
  | setGrammar (source : String)
  | setMetadata (m : Package.Metadata)
  | parse (text : String) (ctx : ReadingContext) (file : Option String)
  | setData (data : Value)
  | readData (text : String) (clock : Option Int) (file : Option String)
      (zones : String → Option Zone)
  | nodes
  | hash
  | files (includeLogic : Bool)
  | archive (language : Option String) (includeLogic : Bool)
  | draft (options : Outcome DraftOptions)

namespace Operation

open Instance

/-- The work of an operation, without its answer. -/
def work : Operation → Work Instance Unit
  | build text => onTemplate (Template.build text)
  | setGrammar source => onTemplate (Template.setGrammar source)
  | setMetadata m => onTemplate (Work.change fun t => t.withMetadata m)
  | parse text ctx file => do let _ ← onTemplate (Template.read text ctx file)
  | setData data => Instance.setData data
  | readData text clock file zones => do let _ ← Instance.read text clock file zones
  | nodes => do let _ ← onTemplate Template.nodes
  | hash => do let _ ← onTemplate Template.hash
  | files includeLogic => do let _ := (← Work.state).template.files includeLogic
  | archive language includeLogic => do
    let _ ← onTemplate (Template.archive language includeLogic)
  | draft options => do let _ ← Instance.draft options

/-- Whether an operation only looks at the template and the data. -/
def inspects : Operation → Bool
  | nodes | hash | files _ | archive _ _ | draft _ => true
  | _ => false

/-- How an operation may change the grammar in force: it is built from markup, which is then
kept, or it is set. -/
def Evolves (o : Operation) (t t' : Template) : Prop :=
  t'.environment = t.environment ∧
    (t'.registry = t.registry ∨ (∃ g b, t'.registry = ⟨some g, some b⟩) ∨
      ∃ source g, o = setGrammar source ∧
        Registry.readSource t.settings.grammarFile source = .ok g ∧
        t'.registry = { t.registry with grammar := some g })

theorem Evolves.same {o : Operation} {t t' : Template} (henvironment : t'.environment = t.environment)
    (hregistry : t'.registry = t.registry) : o.Evolves t t' :=
  ⟨henvironment, .inl hregistry⟩

theorem evolves_of_lazily {o : Operation} {t t' : Template} (h : t.Lazily t') :
    o.Evolves t t' := by
  rcases h with rfl | ⟨_, r', hr', rfl⟩
  · exact .same rfl rfl
  · exact ⟨rfl, .inr (.inl hr'.spec)⟩

/-- **One operation** changes the grammar in force in no other way. -/
theorem ends (o : Operation) (i : Instance) :
    o.work.Ends i (fun _ i' => o.Evolves i.template i'.template)
      fun _ i' => o.Evolves i.template i'.template := by
  have hdiscard : ∀ {α : Type} {w : Work Instance α},
      w.Ends i (fun _ i' => o.Evolves i.template i'.template)
        (fun _ i' => o.Evolves i.template i'.template) →
      (w >>= fun _ => pure ()).Ends i (fun _ i' => o.Evolves i.template i'.template)
        fun _ i' => o.Evolves i.template i'.template :=
    fun h => h.bind (fun _ _ h => ends_pure h) fun _ _ h => h
  have hsame : ∀ {t' : Template}, t' = i.template → o.Evolves i.template t' :=
    fun h => h ▸ .same rfl rfl
  have hlazily : ∀ {t' : Template}, i.template.Lazily t' → o.Evolves i.template t' :=
    evolves_of_lazily
  cases o with
  | build text =>
    refine onTemplate_ends ((Template.build_ends text i.template).mono ?_ fun _ _ h => hsame h)
    rintro _ _ ⟨markup, type, r', _, _, hr', rfl⟩
    unfold Template.withMarkup
    split
    · exact ⟨rfl, .inr (.inl hr'.spec)⟩
    · exact ⟨rfl, .inr (.inl hr'.spec)⟩
  | setGrammar source =>
    refine onTemplate_ends ?_
    unfold Template.setGrammar
    refine Ends.of_state (Ends.within (Template.onRegistry_ends (fun type _ => ?_) ?_) _)
    · refine (Registry.set_ends _ source i.template.registry).mono ?_ fun _ _ h => hsame (h ▸ rfl)
      rintro _ _ ⟨g, hg, rfl⟩
      exact ⟨rfl, .inr (.inr ⟨source, g, rfl, hg, rfl⟩)⟩
    · exact fun _ _ => hsame rfl
  | setMetadata m => exact onTemplate_ends (ends_change (.same rfl rfl))
  | parse text ctx file =>
    exact hdiscard (onTemplate_ends ((Template.read_ends text ctx file i.template).mono
      (fun _ _ h => hlazily h) fun _ _ h => hlazily h))
  | setData data =>
    exact (setData_ends data i).mono (fun _ _ h => hsame h) fun _ _ h => hsame h
  | readData text clock file zones =>
    exact hdiscard ((Instance.read_ends text clock file zones i).mono (fun _ _ h => hlazily h)
      fun _ _ h => hlazily h)
  | nodes =>
    exact hdiscard (onTemplate_ends ((Template.nodes_ends i.template).mono
      (fun _ _ h => hlazily h) fun _ _ h => hlazily h))
  | hash =>
    refine hdiscard (onTemplate_ends ((Template.hash_ends i.template).mono ?_ fun _ _ h => hsame h))
    rintro _ _ ⟨d, rfl⟩
    exact .same rfl rfl
  | files includeLogic => exact Ends.of_state (ends_pure (hsame rfl))
  | archive language includeLogic =>
    exact hdiscard (onTemplate_ends ((Template.archive_ends language includeLogic i.template).mono
      (fun _ _ h => hsame h) fun _ _ h => hsame h))
  | draft options =>
    refine hdiscard ((draft_ends options i).mono ?_ ?_)
    · rintro _ _ ⟨t', h, rfl⟩
      exact hlazily h
    · rintro _ _ ⟨t', h, rfl⟩
      exact hlazily h

/-- What inspecting makes of a template: its digest may be made; and if no grammar is in
force, or none was built so far, one may be built from its markup. -/
def Inspected (t t' : Template) : Prop :=
  ∃ d, t' = { t with digest := d } ∨
    (t.registry.grammar = none ∨ t.registry.blueprint = none) ∧
      ∃ r', t.Rebuilds r' ∧ t' = { t with registry := r', digest := d }

theorem inspected_of_lazily {t t' : Template} (h : t.Lazily t') : Inspected t t' := by
  rcases h with rfl | ⟨hnone, r', hr', rfl⟩
  · exact ⟨t'.digest, .inl rfl⟩
  · exact ⟨t.digest, .inr ⟨hnone, r', hr', rfl⟩⟩

/-- **One inspection** changes nothing else, and not the data. -/
theorem inspect_ends {o : Operation} (ho : o.inspects = true) (i : Instance) :
    o.work.Ends i (fun _ i' => ∃ t', Inspected i.template t' ∧ i' = { i with template := t' })
      fun _ i' => ∃ t', Inspected i.template t' ∧ i' = { i with template := t' } := by
  let Kept (i' : Instance) : Prop := ∃ t', Inspected i.template t' ∧ i' = { i with template := t' }
  have hdiscard : ∀ {α : Type} {w : Work Instance α},
      w.Ends i (fun _ => Kept) (fun _ => Kept) →
        (w >>= fun _ => pure ()).Ends i (fun _ => Kept) fun _ => Kept :=
    fun h => h.bind (fun _ _ h => ends_pure h) fun _ _ h => h
  have htemplate : ∀ {t' : Template}, Inspected i.template t' → Kept { i with template := t' } :=
    fun h => ⟨_, h, rfl⟩
  have hsame : ∀ {t' : Template}, t' = i.template → Kept { i with template := t' } :=
    fun h => htemplate ⟨i.template.digest, .inl h⟩
  cases o with
  | nodes =>
    exact hdiscard (onTemplate_ends ((Template.nodes_ends i.template).mono
      (fun _ _ h => htemplate (inspected_of_lazily h))
      fun _ _ h => htemplate (inspected_of_lazily h)))
  | hash =>
    refine hdiscard (onTemplate_ends ((Template.hash_ends i.template).mono ?_ fun _ _ h => hsame h))
    rintro _ _ ⟨d, rfl⟩
    exact htemplate ⟨d, .inl rfl⟩
  | files includeLogic => exact Ends.of_state (ends_pure (hsame rfl))
  | archive language includeLogic =>
    exact hdiscard (onTemplate_ends ((Template.archive_ends language includeLogic i.template).mono
      (fun _ _ h => hsame h) fun _ _ h => hsame h))
  | draft options =>
    refine hdiscard ((draft_ends options i).mono ?_ ?_)
    · rintro _ _ ⟨t', h, rfl⟩
      exact htemplate (inspected_of_lazily h)
    · rintro _ _ ⟨t', h, rfl⟩
      exact htemplate (inspected_of_lazily h)
  | _ => cases ho

theorem Inspected.trans {t t' t'' : Template} (h : Inspected t t') (h' : Inspected t' t'') :
    Inspected t t'' := by
  obtain ⟨d, rfl | ⟨hnone, r', hr', rfl⟩⟩ := h
  · obtain ⟨d', rfl | ⟨hnone, r', hr', rfl⟩⟩ := h'
    · exact ⟨d', .inl rfl⟩
    · exact ⟨d', .inr ⟨hnone, r', hr', rfl⟩⟩
  · -- after one build, a grammar is in force and its markup is at hand
    obtain ⟨g, b, rfl⟩ := hr'.spec
    obtain ⟨d', rfl | ⟨hnone', _⟩⟩ := h'
    · exact ⟨d', .inr ⟨hnone, _, hr', rfl⟩⟩
    · rcases hnone' with hnone' | hnone' <;> cases hnone'

/-! ### Runs -/

/-- An instance and a session after an operation, whether it succeeds or not. -/
def perform (x : Instance × Session) (o : Operation) : Instance × Session :=
  (o.work.run x.1 x.2).2

/-- An instance and a session after operations, one after another. -/
def performAll (os : List Operation) (x : Instance × Session) : Instance × Session :=
  os.foldl perform x

theorem performAll_append (os os' : List Operation) (x : Instance × Session) :
    performAll (os ++ os') x = performAll os' (performAll os x) :=
  List.foldl_append

theorem perform_of_run {o : Operation} {x : Instance × Session} {r : Outcome Unit} {i : Instance}
    {s : Session} (h : o.work.run x.1 x.2 = (r, i, s)) : perform x o = (i, s) :=
  congrArg Prod.snd h

theorem perform_nodes {x : Instance × Session} {t : Template} {s : Session}
    (h : (Template.nodes.run x.1.template x.2).2 = (t, s)) :
    perform x .nodes = ({ x.1 with template := t }, s) := by
  rcases hrun : Template.nodes.run x.1.template x.2 with ⟨_ | _, t', s'⟩
  all_goals
    rw [hrun] at h
    cases h
  · exact perform_of_run (run_bind_error (run_onTemplate hrun))
  · exact perform_of_run (run_bind_ok (run_onTemplate hrun))

/-- What holds however an operation ends holds after it. -/
theorem perform_spec {P : Instance → Prop} {o : Operation} {x : Instance × Session}
    (h : o.work.Ends x.1 (fun _ => P) fun _ => P) : P (perform x o).1 := by
  rcases hrun : o.work.run x.1 x.2 with ⟨_ | _, i, s⟩
  · exact (congrArg (fun y => P y.2.1) hrun).mpr (h.error hrun)
  · exact (congrArg (fun y => P y.2.1) hrun).mpr (h.ok hrun)

/-- Where the grammar in force comes from as long as none was built from markup: from a source
that was set. -/
def Sourced (file : String) (os : List Operation) (r : Registry) : Prop :=
  r.blueprint = none → ∀ g, r.grammar = some g →
    ∃ source, setGrammar source ∈ os ∧ Registry.readSource file source = .ok g

/-- **A run of operations** from a template without a grammar keeps the environment, and the
grammar in force is one that was set unless one was built from markup. -/
theorem sourced_performAll {i : Instance} (hfresh : i.template.registry = {})
    (os : List Operation) (s : Session) :
    (performAll os (i, s)).1.template.environment = i.template.environment ∧
      Sourced i.template.settings.grammarFile os (performAll os (i, s)).1.template.registry := by
  induction os using List.reverseRecOn with
  | nil =>
    refine ⟨rfl, fun _ g hg => ?_⟩
    rw [show (performAll [] (i, s)).1 = i from rfl, hfresh] at hg
    cases hg
  | append_singleton os o ih =>
    rw [performAll_append]
    obtain ⟨henvironment, hsourced⟩ := ih
    generalize performAll os (i, s) = x at henvironment hsourced
    have hfile : x.1.template.settings.grammarFile = i.template.settings.grammarFile := by
      rw [Template.settings, henvironment]
      rfl
    obtain ⟨henvironment', hregistry⟩ := perform_spec (x := x) (o.ends x.1)
    refine ⟨henvironment'.trans henvironment, ?_⟩
    change Sourced _ _ (perform x o).1.template.registry
    intro hnone g hg
    rcases hregistry with h | ⟨g', b, h⟩ | ⟨source, g', rfl, hsource, h⟩
    · rw [h] at hnone hg
      obtain ⟨source, hmem, hread⟩ := hsourced hnone g hg
      exact ⟨source, by simp [hmem], hread⟩
    · rw [h] at hnone
      cases hnone
    · rw [h] at hg
      cases hg
      exact ⟨source, by simp, hfile ▸ hsource⟩

/-- **A run of inspections** does no more than one. -/
theorem inspected_performAll {os : List Operation} (hos : ∀ o ∈ os, o.inspects = true)
    (x : Instance × Session) : Inspected x.1.template (performAll os x).1.template := by
  induction os generalizing x with
  | nil => exact ⟨x.1.template.digest, .inl rfl⟩
  | cons o os ih =>
    obtain ⟨t', ht', hi'⟩ := perform_spec (x := x) (inspect_ends (hos o (by simp)) x.1)
    have hrest := ih (fun o' ho' => hos o' (by simp [ho'])) (perform x o)
    rw [hi'] at hrest
    exact ht'.trans hrest

end Operation

namespace Instance

open Operation

/-- **Inspections leave the grammar in force as it is**, and every text is read as before,
whatever operations came before them: drafting, asking for the nodes of the markup or for the
digest, and writing the package. The only exception is a grammar that was set from source when
none was ever built from the markup of the template: then drafting, or asking for the nodes,
may replace it by the grammar of the markup. -/
theorem inspect_keeps {i₀ i i' : Instance} {s₀ s s' : Session}
    (hfresh : i₀.template.registry = {}) {before inspections : List Operation}
    (hi : performAll before (i₀, s₀) = (i, s))
    (hinspect : ∀ o ∈ inspections, o.inspects = true)
    (hi' : performAll inspections (i, s) = (i', s')) {g : Grammar}
    (hg : i.template.registry.grammar = some g) :
    (i'.template.registry = i.template.registry ∧ ∀ text ctx file session session',
      ((Template.read text ctx file).run i'.template session').1
        = ((Template.read text ctx file).run i.template session).1) ∨
    i.template.registry.blueprint = none ∧
      (∃ source, setGrammar source ∈ before ∧
        Registry.readSource i₀.template.settings.grammarFile source = .ok g) ∧
      i.template.Rebuilds i'.template.registry := by
  have hinspected := inspected_performAll hinspect (i, s)
  rw [hi'] at hinspected
  obtain ⟨d, h | ⟨hnone, r', hr', h⟩⟩ := hinspected
  all_goals simp only at h
  · refine .inl ⟨h ▸ rfl, fun text ctx file session session' => ?_⟩
    have hg' : i'.template.registry.grammar = some g := h ▸ hg
    rw [Template.run_read hg', Template.run_read hg, h]
    rfl
  · have hblueprint : i.template.registry.blueprint = none :=
      hnone.resolve_left fun hnone => by rw [hg] at hnone; cases hnone
    have hsourced := (sourced_performAll hfresh before s₀).2
    rw [hi] at hsourced
    exact .inr ⟨hblueprint, hsourced hblueprint g hg, h ▸ hr'⟩

end Instance

/-! ### A greeting -/

namespace Greeting

open Operation

/-- A model of greetings, which have a name. -/
def model : ModelFile where
  ns := "greeting"
  declarations :=
    [{ kind := .asset, name := "Greeting", extends? := some "Clause"
       properties := [{ name := "name", type := "String" }] }]

/-- A template with markup, and without a grammar so far. -/
def template : Template where
  environment := { identifier := toString }
  metadata := { info := { name := "greeting", version := "1.0.0", profile := { kind := .clause } } }
  models := [("model/greeting.json", model.toValue)]
  markup := some "Hello."
  catalog := (Catalog.system.add model.toValue).2

def nodes : List Markup.Node :=
  [.text "Hello." true ⟨1, 1⟩]

theorem read_markup (file : Option String) (separator : String) :
    Markup.read (Document.read "Hello.").write file separator = .ok nodes := by
  have hwrite : (Document.read "Hello.").write = "Hello." := by decide +kernel
  rw [hwrite, Markup.read_plain (by decide) (by decide)]
  rfl

def source : String :=
  "@start rule\nrule -> \"Hi \" String \x7b% object $class=\"greeting.Greeting\" name=1 %\x7d\n"
    ++ "String -> /\"[a-z]*\"/ \x7b% string %\x7d\n"

def type : SchemaType :=
  (template.catalog.types.find? "greeting.Greeting").getD default

theorem evaluated : template.catalog.types.find? type.fqn = some type ∧
    template.type.toOption.any (· = type) = true ∧ (∀ f ∈ template.catalog.files, '\n' ∉ f.model.ns.toList ∧
      ∀ d ∈ f.model.declarations, '\n' ∉ d.name.toList ∧ ∀ p ∈ d.properties, '\n' ∉ p.name.toList) ∧
    (template.compiler.compile nodes type 0).1.toOption.any (fun set =>
      set.usable && set.write.toOption.any (· != source)) = true := by
  decide +kernel

/-- The grammar of the markup can be made, and has another source. -/
theorem exists_grammar : ∃ set source' g, (template.compiler.compile nodes type 0).1 = .ok set ∧
    set.write = .ok source' ∧
    Registry.readSource template.compiler.settings.grammarFile source' = .ok g ∧
    g.source = some source' ∧ source' ≠ source := by
  obtain ⟨hd, _, hlines, hset⟩ := evaluated
  obtain ⟨set, hset, htest⟩ := Outcome.exists_of_any hset
  obtain ⟨husable, hother⟩ := (Bool.and_eq_true _ _).mp htest
  obtain ⟨source', hsource', hne⟩ := Outcome.exists_of_any hother
  have hlines : ∀ f ∈ template.compiler.catalog.files, f.model.OneLine := fun f hf =>
    ⟨(hlines f hf).1, fun d hd => ((hlines f hf).2 d hd).1, fun d hd => ((hlines f hf).2 d hd).2⟩
  obtain ⟨_, hwrite, hread⟩ := Registry.readSource_compile (c := template.compiler)
    (.add .system _ _) hlines hd (by simp [Markup.Compiler.formats, Markup.Compiler.formatsOf, nodes])
    hset husable
  cases hsource'.symm.trans hwrite
  obtain ⟨t, ht, _⟩ := hread template.compiler.settings.grammarFile
  exact ⟨set, source', _, hset, hwrite, ht, rfl, by simpa using hne⟩

theorem type_template : template.type = .ok type := by
  obtain ⟨d, hd, htest⟩ := Outcome.exists_of_any evaluated.2.1
  rw [hd, of_decide_eq_true htest]

/-- Building the grammar of the markup, whatever grammar is in force. -/
theorem run_build {g : Grammar} (hg : ∃ set source,
      (template.compiler.compile nodes type 0).1 = .ok set ∧ set.write = .ok source ∧
        Registry.readSource template.compiler.settings.grammarFile source = .ok g)
    (r : Registry) {s : Session} (hs : s.issued = 0) : ∃ b s',
      Template.build.run { template with registry := r } s
        = (.ok (), { template with registry := ⟨some g, some b⟩ }, s') := by
  obtain ⟨set, source, hset, hwrite, hg⟩ := hg
  exact ⟨⟨(Document.read "Hello.").write, nodes⟩,
    Template.run_rebuild (t := { template with registry := r }) rfl type_template fun s' hs' =>
      Registry.run_build (read_markup _ _) ((hs'.trans hs).symm ▸ hset) hwrite hg _⟩

def fresh : Instance × Session :=
  perform ({ template }, {}) (.build none)

def inspections : List Operation :=
  [.nodes, .hash, .files true, .archive (some "ergo") true, .draft (.ok {})]

/-- **A grammar that was built** stays in force. -/
theorem inspect_fresh : template.registry = {} ∧ (∀ o ∈ inspections, o.inspects = true) ∧
    fresh.1.template.registry.isBuilt = true ∧
    (performAll inspections fresh).1.template.registry = fresh.1.template.registry := by
  have hinspect : ∀ o ∈ inspections, o.inspects = true := by simp [inspections, inspects]
  obtain ⟨set, source, g, hset, hwrite, hg, _⟩ := exists_grammar
  obtain ⟨b, s, hrun⟩ := run_build ⟨set, source, hset, hwrite, hg⟩ {} (s := {}) rfl
  have hbuild : fresh = (⟨{ template with registry := ⟨some g, some b⟩ }, none⟩, s) :=
    perform_of_run (Instance.run_onTemplate hrun)
  have hfresh : fresh.1.template.registry = ⟨some g, some b⟩ := by
    rw [hbuild]
  refine ⟨rfl, hinspect, ?_, ?_⟩
  · rw [hfresh]
    rfl
  have hrun : performAll [.build none] ({ template }, {}) = (fresh.1, fresh.2) := rfl
  have hrun' : performAll inspections (fresh.1, fresh.2)
      = ((performAll inspections fresh).1, (performAll inspections fresh).2) := rfl
  rcases Instance.inspect_keeps rfl hrun hinspect hrun' (congrArg Registry.grammar hfresh)
    with ⟨h, _⟩ | ⟨hnone, _⟩
  · exact h
  · rw [hfresh] at hnone
    cases hnone

def given : Instance × Session :=
  perform ({ template }, {}) (.setGrammar source)

theorem source_ok : (Registry.readSource template.settings.grammarFile source).toOption.any
    (fun g => g.source == some source) = true := by
  decide +kernel

/-- **A grammar that was set when none was built** is replaced when the nodes of the markup are
asked for. -/
theorem nodes_replace : given.1.template.registry.source? = some source ∧
    (perform given .nodes).1.template.registry.source? ≠ some source := by
  obtain ⟨g₀, hg₀, hsource⟩ := Outcome.exists_of_any source_ok
  have hsource : g₀.source = some source := by simpa using hsource
  obtain ⟨set, source', g, hset, hwrite, hg, hsource', hne⟩ := exists_grammar
  obtain ⟨s, hs, hrun⟩ := Template.run_setGrammar type_template hg₀ {}
  have hgiven : given = (⟨{ template with registry := ⟨some g₀, none⟩ }, none⟩, s) :=
    perform_of_run (Instance.run_onTemplate hrun)
  obtain ⟨b, s', hbuild⟩ := run_build ⟨set, source', hset, hwrite, hg⟩ ⟨some g₀, none⟩ hs
  have hnodes := Template.run_nodes (t := { template with registry := ⟨some g₀, none⟩ }) rfl rfl rfl s
  rw [hbuild] at hnodes
  rw [hgiven, perform_nodes hnodes]
  refine ⟨hsource, fun h => hne ?_⟩
  exact Option.some.inj (hsource'.symm.trans h)

end Greeting

end Covenant
