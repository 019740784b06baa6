import Covenant.Proofs.Template.Loads

/-!
The history of a registry.

* `Registry.Change.product`: what a change puts into a registry. It does not depend on what the
  registry holds.
* `Registry.run_call`: one call installs its product, or leaves the registry as it is.
* `Registry.history_spec`: after every run of calls, the grammar in force is that of the last change
  that succeeded, and the blueprint that of the last build.
-/

namespace Covenant

/-! ### Work that issues identifiers -/

namespace Work

variable {σ α β : Type}

/-- Work gives a result that depends on the identifiers issued before, and does not touch the
state. -/
def Gives (w : Work σ α) (f : Nat → Outcome α) : Prop :=
  ∀ state session, ∃ s, w.run state session = (f session.issued, state, s)

theorem gives_issuing (f : Nat → Outcome α × Nat) :
    (issuing f : Work σ α).Gives fun n => (f n).1 :=
  fun _ session => ⟨{ session with issued := (f session.issued).2 }, rfl⟩

/-- Work after work that issues identifiers. -/
theorem Gives.bind {w : Work σ α} {f : Nat → Outcome α} {k : α → Work σ β} {g : α → Outcome β}
    (h : w.Gives f) (hk : ∀ a, (k a).Yields (g a)) : (w >>= k).Gives fun n => f n >>= g := by
  intro state session
  obtain ⟨s, hs⟩ := h state session
  beta_reduce
  cases hf : f session.issued with
  | error e =>
    rw [hf] at hs
    exact ⟨s, run_bind_error hs⟩
  | ok a =>
    rw [hf] at hs
    rw [run_bind_ok hs]
    exact hk a state s

/-- Work after a result, which issues no identifiers. -/
theorem Gives.after {o : Outcome α} {k : α → Work σ β} {g : α → Nat → Outcome β}
    (hk : ∀ a, (k a).Gives (g a)) : (ofOutcome o >>= k).Gives fun n => o >>= fun a => g a n := by
  intro state session
  have hrun : (ofOutcome o).run state session = (o, state, session) := rfl
  cases o with
  | error e => exact ⟨session, run_bind_error hrun⟩
  | ok a =>
    rw [run_bind_ok hrun]
    exact hk a state session

/-- Work after an entry in the journal. -/
theorem Gives.noted {severity : Journal.Severity} {part message : String}
    {report : Option Fault.Report} {k : Unit → Work σ α} {f : Nat → Outcome α} (hk : (k ()).Gives f) :
    (note severity part message report >>= k).Gives f := by
  intro state session
  obtain ⟨s, hissued, hs⟩ := run_note severity part message report state session
  rw [run_bind_ok hs, ← hissued]
  exact hk state s

theorem Gives.noteFault {w : Work σ α} {f : Nat → Outcome α} (h : w.Gives f) (part lead : String) :
    (Work.noteFault part lead w).Gives f := by
  intro state session
  obtain ⟨s, hs⟩ := h state session
  exact run_noteFault part lead hs

end Work

namespace Registry

/-! ### Calls -/

/-- A change of the grammar in force: it is set from a source, or built from markup. -/
inductive Change where
  | set (source : String)
  | build (text : String)

/-- A call of a registry: a change, or the request of a reader for a text. -/
inductive Call where
  | change (k : Change)
  | reader

/-- What a change puts into a registry: a grammar with its source, and the blueprint that it was
built from. -/
structure Product where
  grammar : Grammar
  source : String
  blueprint : Option Blueprint

/-- The blueprint is kept if none comes with the grammar. -/
def install (r : Registry) (p : Product) : Registry :=
  ⟨some p.grammar, p.blueprint.or r.blueprint⟩

section

variable (c : Markup.Compiler) (type : SchemaType)

/-- The nodes of markup in normal form, and the source of their rules. -/
def generated (markup : String) (issued : Nat) : Outcome (List Markup.Node × String) := do
  let nodes ← Markup.read markup (some c.settings.grammarFile) c.settings.joinSeparator
  let rules ← (c.compile nodes type issued).1
  let source ← rules.write
  return (nodes, source)

/-- **What a change makes**, when so many identifiers have been issued. -/
def Change.product (issued : Nat) : Change → Outcome Product
  | set source => do
    let g ← readSource c.settings.grammarFile source
    return ⟨g, source, none⟩
  | build text => do
    let markup := (Document.read text).write
    let (nodes, source) ← generated c type markup issued
    let g ← readSource c.settings.grammarFile source
    return ⟨g, source, some ⟨markup, nodes⟩⟩

/-- The work of a call, which may give a reader. -/
def Call.work : Call → Work Registry (Option Reader)
  | change (.set source) => do
    Registry.set c.settings.grammarFile source
    return none
  | change (.build text) => do
    Registry.build c type text
    return none
  | reader => do
    let g ← Work.ofOutcome (← Work.state).current
    return some { grammar := g }

def Call.answer (r : Registry) (issued : Nat) : Call → Outcome (Option Reader)
  | change k => (k.product c type issued).map fun _ => none
  | reader => r.current.map fun g => some { grammar := g }

def Call.result (r : Registry) (issued : Nat) : Call → Registry
  | change k =>
    match k.product c type issued with
    | .ok p => r.install p
    | .error _ => r
  | reader => r

end

/-! ### One call -/

section

variable {c : Markup.Compiler} {type : SchemaType}

theorem gives_generate {σ : Type} (markup : String) :
    (generate c type markup : Work σ _).Gives (generated c type markup) := by
  have hcompile : ∀ nodes, (compile c nodes type : Work σ RuleSet).Gives
      fun n => (c.compile nodes type n).1 := by
    intro nodes
    have hlast : ∀ rules : RuleSet, (do
        Work.note .debug "compiler" ("Compiled template for " ++ type.fqn ++ ": " ++ countRules rules)
        return rules : Work σ RuleSet).Yields (.ok rules) := fun rules =>
      (Work.yields_note _ _ _ _).andThen (Work.yields_ofOutcome (.ok rules))
    refine (Work.gives_issuing (c.nodeRules nodes type)).bind fun own =>
      (Work.yields_ofOutcome _).bind fun types => (Work.yields_note _ _ _ _).andThen ?_
    have hrules := (Work.yields_ofOutcome (σ := σ) (c.withTypes own types)).bind hlast
    have hpure : (c.withTypes own types >>= Except.ok) = c.withTypes own types := by
      cases c.withTypes own types <;> rfl
    rwa [hpure] at hrules
  exact Work.Gives.after fun nodes => (hcompile nodes).bind fun rules =>
    (Work.yields_ofOutcome _).bind fun source => Work.yields_ofOutcome _

/-- **Setting a source** installs its grammar, or leaves the registry as it is. -/
theorem exists_run_set (file source : String) (r : Registry) (session : Session) :
    ∃ s, (Registry.set file source).run r session =
      match readSource file source with
      | .ok g => (.ok (), { r with grammar := some g }, s)
      | .error f => (.error f, r, s) := by
  have hread : (Work.ofOutcome (readSource file source)).run r session =
      (readSource file source, r, session) := rfl
  obtain ⟨s, hs⟩ := Work.run_noteFault "registry" "Grammar compilation failed: " hread
  unfold Registry.set
  cases hsource : readSource file source with
  | error f =>
    rw [hsource] at hs
    exact ⟨s, Work.run_bind_error hs⟩
  | ok g =>
    rw [hsource] at hs
    rw [Work.run_bind_ok hs]
    exact ⟨_, rfl⟩

/-- **Building markup** installs the grammar of the source that is generated for it, with the
blueprint, or leaves the registry as it is. -/
theorem exists_run_build (text : String) (r : Registry) (session : Session) :
    ∃ s, (Registry.build c type text).run r session =
      match (Change.build text).product c type session.issued with
      | .ok p => (.ok (), r.install p, s)
      | .error f => (.error f, r, s) := by
  obtain ⟨s, hissued, hbegun⟩ := Work.run_note .debug "registry"
    ("Building grammar from template markup:\n" ++ (Document.read text).write) none r session
  obtain ⟨s₁, hs₁⟩ := (@gives_generate c type _ (Document.read text).write).noteFault
    "registry" "Grammar build failed: " r s
  rw [hissued] at hs₁
  unfold Registry.build
  rw [Work.run_bind_ok hbegun]
  simp only [Change.product]
  cases hgenerated : generated c type (Document.read text).write session.issued with
  | error f =>
    rw [hgenerated] at hs₁
    exact ⟨s₁, Work.run_bind_error hs₁⟩
  | ok x =>
    obtain ⟨nodes, source⟩ := x
    rw [hgenerated] at hs₁
    obtain ⟨s₂, -, hnoted⟩ := Work.run_note .debug "registry" ("Generated grammar:\n" ++ source) none
      r s₁
    obtain ⟨s₃, hs₃⟩ := exists_run_set c.settings.grammarFile source r s₂
    rw [Work.run_bind_ok hs₁]
    simp only
    rw [Work.run_bind_ok hnoted]
    cases hsource : readSource c.settings.grammarFile source with
    | error f =>
      rw [hsource] at hs₃
      refine ⟨s₃, (Work.run_bind_error hs₃).trans ?_⟩
      simp [bind, Except.bind, hsource]
    | ok g =>
      rw [hsource] at hs₃
      refine ⟨s₃, (Work.run_bind_ok hs₃).trans ?_⟩
      simp only [bind, Except.bind, hsource]
      rfl

/-- **One call** gives its answer and installs its product, or leaves the registry as it is. -/
theorem run_call (k : Call) (r : Registry) (session : Session) :
    ∃ s, (k.work c type).run r session =
      (k.answer c type r session.issued, k.result c type r session.issued, s) := by
  cases k with
  | reader =>
    refine ⟨session, ?_⟩
    simp only [Call.work, Call.answer, Call.result]
    have hstate : Work.state.run r session = ((.ok r, r, session) : Outcome Registry × _ × _) := rfl
    have hcurrent : (Work.ofOutcome r.current).run r session = (r.current, r, session) := rfl
    rw [Work.run_bind_ok hstate, Work.run_bind, hcurrent]
    cases r.current <;> rfl
  | change k =>
    simp only [Call.answer, Call.result]
    cases k with
    | set source =>
      obtain ⟨s, hs⟩ := exists_run_set c.settings.grammarFile source r session
      refine ⟨s, ?_⟩
      simp only [Call.work, Change.product]
      rw [Work.run_bind, hs]
      cases readSource c.settings.grammarFile source <;> rfl
    | build text =>
      obtain ⟨s, hs⟩ := @exists_run_build c type text r session
      refine ⟨s, ?_⟩
      simp only [Call.work]
      rw [Work.run_bind, hs]
      cases (Change.build text).product c type session.issued <;> rfl

end

/-! ### Runs of calls -/

/-- A call that was made: how many identifiers had been issued before it, and what it answered. -/
structure Event where
  call : Call
  issued : Nat
  answer : Outcome (Option Reader)

def Event.Changes (e : Event) : Prop :=
  e.call ≠ .reader ∧ ∃ a, e.answer = .ok a

/-- The calls that were made, and the registry and the session after them. -/
structure Record where
  events : List Event
  registry : Registry
  session : Session

section

variable (c : Markup.Compiler) (type : SchemaType)

/-- What a change has put into the registry, if it succeeded. -/
def Event.product? (e : Event) : Option Product :=
  match e.call with
  | .change k => e.answer.toOption.bind fun _ => (k.product c type e.issued).toOption
  | .reader => none

/-- **Calls one after another**, whether they succeed or not. -/
def history : List Call → Registry → Session → Record
  | [], r, s => ⟨[], r, s⟩
  | k :: calls, r, s =>
    let (answer, r', s') := (k.work c type).run r s
    let x := history calls r' s'
    { x with events := ⟨k, s.issued, answer⟩ :: x.events }

end

section

variable {c : Markup.Compiler} {type : SchemaType}

theorem history_cons (k : Call) (calls : List Call) (r : Registry) (session : Session) :
    ∃ s, history c type (k :: calls) r session =
      { history c type calls (k.result c type r session.issued) s with
        events := ⟨k, session.issued, k.answer c type r session.issued⟩ ::
          (history c type calls (k.result c type r session.issued) s).events } := by
  obtain ⟨s, hs⟩ := @run_call c type k r session
  refine ⟨s, ?_⟩
  rw [history, hs]

/-- **A call changes the registry by its product**, if it has succeeded and is no request for a
reader. -/
theorem result_eq (k : Call) (r : Registry) (issued : Nat) :
    k.result c type r issued =
      (Event.product? c type ⟨k, issued, k.answer c type r issued⟩).elim r r.install := by
  cases k with
  | reader => rfl
  | change k =>
    simp only [Call.result, Event.product?, Call.answer]
    cases k.product c type issued <;> rfl

theorem changes_iff (k : Call) (r : Registry) (issued : Nat) :
    Event.Changes ⟨k, issued, k.answer c type r issued⟩ ↔
      (Event.product? c type ⟨k, issued, k.answer c type r issued⟩).isSome = true := by
  cases k with
  | reader => simp [Event.Changes, Event.product?]
  | change k =>
    simp only [Event.Changes, Event.product?, Call.answer]
    cases k.product c type issued <;> simp [Except.map, Except.toOption]

/-- The source of a product is that of its grammar. -/
theorem source_product {k : Change} {issued : Nat} {p : Product}
    (h : k.product c type issued = .ok p) : p.grammar.source = some p.source := by
  have hsource : ∀ {file source g}, readSource file source = .ok g → g.source = some source := by
    intro file source g hg
    obtain ⟨rules, -, hg⟩ := Outcome.bind_eq_ok.mp hg
    obtain ⟨-, -, hg⟩ := Outcome.bind_eq_ok.mp hg
    split at hg
    · cases hg
      rfl
    · cases hg
  cases k with
  | set source =>
    obtain ⟨g, hg, h⟩ := Outcome.bind_eq_ok.mp h
    cases h
    exact hsource hg
  | build text =>
    obtain ⟨x, -, h⟩ := Outcome.bind_eq_ok.mp h
    obtain ⟨g, hg, h⟩ := Outcome.bind_eq_ok.mp h
    cases h
    exact hsource hg

/-- **A run of calls** installs the products of the changes that succeeded, one after another. -/
theorem registry_history (calls : List Call) (r : Registry) (session : Session) :
    (history c type calls r session).registry =
      ((history c type calls r session).events.filterMap (Event.product? c type)).foldl install r := by
  induction calls generalizing r session with
  | nil => rfl
  | cons k calls ih =>
    obtain ⟨s, hs⟩ := @history_cons c type k calls r session
    rw [hs, List.filterMap_cons, ih, result_eq]
    cases Event.product? c type ⟨k, session.issued, k.answer c type r session.issued⟩ <;> rfl

theorem call_history (calls : List Call) (r : Registry) (session : Session) :
    (history c type calls r session).events.map Event.call = calls := by
  induction calls generalizing r session with
  | nil => rfl
  | cons k calls ih =>
    obtain ⟨s, hs⟩ := @history_cons c type k calls r session
    rw [hs, List.map_cons, ih]

/-- The events of a run are calls of registries. -/
theorem event_history {calls : List Call} {r : Registry} {session : Session} {e : Event}
    (he : e ∈ (history c type calls r session).events) :
    ∃ r', e.answer = e.call.answer c type r' e.issued := by
  induction calls generalizing r session with
  | nil => cases he
  | cons k calls ih =>
    obtain ⟨s, hs⟩ := @history_cons c type k calls r session
    rw [hs] at he
    rcases List.mem_cons.mp he with rfl | he
    · exact ⟨r, rfl⟩
    · exact ih he

end

/-! ### What was installed last -/

theorem grammar_installs (products : List Product) (r : Registry) :
    (products.foldl install r).grammar = (products.getLast?.map Product.grammar).or r.grammar := by
  induction products using List.reverseRecOn with
  | nil => rfl
  | append_singleton products p _ =>
    rw [List.foldl_append, List.getLast?_append]
    rfl

theorem blueprint_installs (products : List Product) (r : Registry) :
    (products.foldl install r).blueprint =
      (products.filterMap Product.blueprint).getLast?.or r.blueprint := by
  induction products using List.reverseRecOn with
  | nil => rfl
  | append_singleton products p ih =>
    rw [List.foldl_append, List.filterMap_append, List.getLast?_append, Option.or_assoc, ← ih]
    cases hblueprint : p.blueprint <;> simp [install, hblueprint]

section

variable {c : Markup.Compiler} {type : SchemaType}

theorem mem_products {calls : List Call} {session : Session} {p : Product}
    (hp : p ∈ (history c type calls {} session).events.filterMap (Event.product? c type)) :
    p.grammar.source = some p.source := by
  obtain ⟨e, -, hproduct⟩ := List.mem_filterMap.mp hp
  unfold Event.product? at hproduct
  split at hproduct
  · rename_i k _
    obtain ⟨-, -, hproduct⟩ := Option.bind_eq_some_iff.mp hproduct
    cases hk : k.product c type e.issued with
    | error f =>
      rw [hk] at hproduct
      cases hproduct
    | ok q =>
      rw [hk] at hproduct
      cases hproduct
      exact source_product hk
  · cases hproduct

/-- **The history of a registry.** After every run of calls from an empty registry, whichever of
them failed, there is a grammar in force iff some set or build succeeded. The grammar and its source
are those that the last successful one has made, and the blueprint is that of the last successful
build. A call that fails now leaves all of it as it is; and a reader is refused exactly as long as
nothing has succeeded, and reads by the grammar in force from then on. -/
theorem history_spec (c : Markup.Compiler) (type : SchemaType) (calls : List Call)
    (session : Session) :
    let x := history c type calls {} session
    let products := x.events.filterMap (Event.product? c type)
    x.events.map Event.call = calls ∧
      (∀ e ∈ x.events, e.Changes ↔ (e.product? c type).isSome = true) ∧
      (x.registry.isBuilt = true ↔ ∃ e ∈ x.events, e.Changes) ∧
      x.registry.grammar = products.getLast?.map Product.grammar ∧
      x.registry.source? = products.getLast?.map Product.source ∧
      x.registry.blueprint = (products.filterMap Product.blueprint).getLast? ∧
      ∀ k : Call, ∃ answer r s, (k.work c type).run x.registry x.session = (answer, r, s) ∧
        (∀ f, answer = .error f → r = x.registry) ∧
        (k = .reader → r = x.registry ∧
          ((∃ p, products.getLast? = some p ∧ answer = .ok (some { grammar := p.grammar })) ∨
            (¬ ∃ e ∈ x.events, e.Changes) ∧ answer = .fail (.state .noGrammar))) := by
  intro x products
  have hregistry : x.registry = products.foldl install {} := registry_history calls {} session
  have hchanges : ∀ e ∈ x.events, e.Changes ↔ (e.product? c type).isSome = true := by
    intro e he
    obtain ⟨r, hanswer⟩ := event_history he
    obtain ⟨k, issued, answer⟩ := e
    obtain rfl : answer = k.answer c type r issued := hanswer
    exact changes_iff k r issued
  have hlast : products.getLast?.isSome = true ↔ ∃ e ∈ x.events, e.Changes := by
    rw [List.getLast?_isSome]
    constructor
    · intro hne
      obtain ⟨p, hp⟩ := List.exists_mem_of_ne_nil _ hne
      obtain ⟨e, he, hproduct⟩ := List.mem_filterMap.mp hp
      exact ⟨e, he, (hchanges e he).mpr (Option.isSome_of_mem hproduct)⟩
    · rintro ⟨e, he, h⟩
      obtain ⟨p, hp⟩ := Option.isSome_iff_exists.mp ((hchanges e he).mp h)
      exact List.ne_nil_of_mem (List.mem_filterMap.mpr ⟨e, he, hp⟩)
  have hgrammar : x.registry.grammar = products.getLast?.map Product.grammar := by
    rw [hregistry, grammar_installs, Option.or_none]
  have hsource : x.registry.source? = products.getLast?.map Product.source := by
    rw [source?, hgrammar]
    cases hp : products.getLast? with
    | none => rfl
    | some p => exact mem_products (List.mem_of_getLast? hp)
  refine ⟨call_history calls {} session, hchanges, ?_, hgrammar, hsource, ?_, fun k => ?_⟩
  · rw [isBuilt, hgrammar, Option.isSome_map, hlast]
  · rw [hregistry, blueprint_installs, Option.or_none]
  · obtain ⟨s, hrun⟩ := @run_call c type k x.registry x.session
    refine ⟨_, _, s, hrun, fun f hf => ?_, ?_⟩
    · cases k with
      | reader => rfl
      | change k =>
        simp only [Call.result, Outcome.map_eq_error.mp hf]
    · rintro rfl
      refine ⟨rfl, ?_⟩
      simp only [Call.answer, current, hgrammar]
      cases hp : products.getLast? with
      | none =>
        refine .inr ⟨fun h => ?_, rfl⟩
        rw [← hlast, hp] at h
        cases h
      | some p => exact .inl ⟨p, rfl, rfl⟩

end

end Registry

end Covenant
