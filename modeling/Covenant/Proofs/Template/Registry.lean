import Covenant.Proofs.Grammar.Same
import Covenant.Proofs.Markup.Source
import Covenant.Template.Registry

/-!
The grammar that a template puts into force.

* `Work.run_bind`: work after work.
* `Registry.build_compile`: the rules of a template survive their source, and building a
  grammar from the template puts these rules into force or finds that they are not usable,
  unless a name or a format has a line feed in it.
* `Ledger.malformed_broken`: with a line feed between digits the source of the rules is
  malformed.
-/

namespace Covenant

/-! ### Work -/

namespace Work

variable {σ α β : Type} {state : σ} {session : Session}

theorem run_bind (w : Work σ α) (f : α → Work σ β) :
    (w >>= f).run state session =
      match w.run state session with
      | (.ok a, state, session) => (f a).run state session
      | (.error e, state, session) => (.error e, state, session) := by
  simp only [run, bind, ExceptT.bind, ExceptT.run, ExceptT.mk, StateT.run, StateT.bind, Id.run]
  obtain ⟨o, s⟩ := (w : σ × Session → Except Fault α × σ × Session) (state, session)
  cases o <;> rfl

theorem run_bind_ok {w : Work σ α} {f : α → Work σ β} {a : α} {state' : σ} {s : Session}
    (h : w.run state session = (.ok a, state', s)) :
    (w >>= f).run state session = (f a).run state' s := by
  rw [run_bind, h]

theorem run_bind_error {w : Work σ α} {f : α → Work σ β} {e : Fault} {state' : σ} {s : Session}
    (h : w.run state session = (.error e, state', s)) :
    (w >>= f).run state session = (.error e, state', s) := by
  rw [run_bind, h]

theorem run_state (state : σ) (session : Session) :
    Work.state.run state session = (.ok state, state, session) :=
  rfl

theorem run_ofOutcome {o : Outcome α} {a : α} (h : o = .ok a) (state : σ) (session : Session) :
    (ofOutcome o).run state session = (.ok a, state, session) :=
  Prod.ext h rfl

/-- A note changes the journal only. -/
theorem run_note (severity : Journal.Severity) (part message : String)
    (report : Option Fault.Report) (state : σ) (session : Session) :
    ∃ s : Session, s.issued = session.issued ∧
      (note severity part message report).run state session = (.ok (), state, s) :=
  ⟨{ session with
      entries := session.entries ++ [⟨severity, part, message, session.scope, report⟩] }, rfl, rfl⟩

theorem run_tryCatch_ok {w : Work σ α} {a : α} {state' : σ} {s : Session}
    (h : w.run state session = (.ok a, state', s)) (handle : Fault → Work σ α) :
    (tryCatch w handle).run state session = (.ok a, state', s) := by
  simp only [run, tryCatch, tryCatchThe, MonadExceptOf.tryCatch, ExceptT.tryCatch, ExceptT.run,
    ExceptT.mk, StateT.run, bind, StateT.bind, Id.run] at h ⊢
  rw [h]
  rfl

theorem run_tryCatch_error {w : Work σ α} {e : Fault} {state' : σ} {s : Session}
    (h : w.run state session = (.error e, state', s)) (handle : Fault → Work σ α) :
    (tryCatch w handle).run state session = (handle e).run state' s := by
  simp only [run, tryCatch, tryCatchThe, MonadExceptOf.tryCatch, ExceptT.tryCatch, ExceptT.run,
    ExceptT.mk, StateT.run, bind, StateT.bind, Id.run] at h ⊢
  rw [h]

/-- A fault that is entered in the journal is the fault of the work. -/
theorem run_noteFault (part lead : String) {w : Work σ α} {o : Outcome α} {state' : σ}
    {s : Session} (h : w.run state session = (o, state', s)) :
    ∃ s', (noteFault part lead w).run state session = (o, state', s') := by
  unfold noteFault
  cases o with
  | ok a => exact ⟨s, run_tryCatch_ok h _⟩
  | error f =>
    rw [run_tryCatch_error h]
    cases hreport : f.report? with
    | none => exact ⟨s, rfl⟩
    | some r =>
      obtain ⟨s', _, hnote⟩ := run_note .error part (lead ++ r.text) (some r) state' s
      exact ⟨s', run_bind_ok hnote⟩

end Work

namespace Registry

open Markup

variable {c : Compiler} {d : SchemaType} {nodes : List Node} {set : RuleSet}

/-! ### Building -/

theorem run_compile {σ : Type} (state : σ) (session : Session)
    (h : (c.compile nodes d session.issued).1 = .ok set) :
    ∃ s, (compile c nodes d : Work σ RuleSet).run state session = (.ok set, state, s) := by
  obtain ⟨own, hown, h⟩ :
      ∃ own, (c.nodeRules nodes d session.issued).1 = .ok own ∧ _ := Outcome.bind_eq_ok.mp h
  obtain ⟨types, htypes, h⟩ := Outcome.bind_eq_ok.mp h
  have hissuing : (Work.issuing (c.nodeRules nodes d)).run state session
      = (.ok own, state, { session with issued := (c.nodeRules nodes d session.issued).2 }) :=
    Prod.ext hown rfl
  have htypesRun : ∀ s, (Work.ofOutcome (c.catalog.rules c.settings d.fqn)).run state s
      = (.ok types, state, s) := fun s => Prod.ext htypes rfl
  have hrulesRun : ∀ s, (Work.ofOutcome (c.withTypes own types)).run state s
      = (.ok set, state, s) := fun s => Prod.ext h rfl
  obtain ⟨s, _, hvisited⟩ := Work.run_note .debug "grammar"
    ("Visited model " ++ d.fqn ++ ": " ++ countRules types) none state _
  obtain ⟨s', _, hcompiled⟩ := Work.run_note .debug "compiler"
    ("Compiled template for " ++ d.fqn ++ ": " ++ countRules set) none state s
  unfold compile
  rw [Work.run_bind_ok hissuing, Work.run_bind_ok (htypesRun _), Work.run_bind_ok hvisited,
    Work.run_bind_ok (hrulesRun s), Work.run_bind_ok hcompiled]
  exact ⟨s', rfl⟩

theorem run_generate {σ : Type} (state : σ) (session : Session) {markup source : String}
    (hread : Markup.read markup (some c.settings.grammarFile) c.settings.joinSeparator = .ok nodes)
    (hset : (c.compile nodes d session.issued).1 = .ok set) (hsource : set.write = .ok source) :
    ∃ s, (generate c d markup : Work σ (List Node × String)).run state session
      = (.ok (nodes, source), state, s) := by
  have hnodes : (Work.ofOutcome (Markup.read markup (some c.settings.grammarFile)
      c.settings.joinSeparator)).run state session = (.ok nodes, state, session) :=
    Prod.ext hread rfl
  obtain ⟨s, hrules⟩ := run_compile state session hset
  have hwrite : (Work.ofOutcome set.write).run state s = (.ok source, state, s) :=
    Prod.ext hsource rfl
  unfold generate
  rw [Work.run_bind_ok hnodes, Work.run_bind_ok hrules, Work.run_bind_ok hwrite]
  exact ⟨s, rfl⟩

/-- Setting a source that is read puts its rules into force, or finds that they are not
usable. -/
theorem run_set {file source : String} {t : RuleSet}
    (hread : RuleSet.read source (some file) = .ok t) (hcheck : t.check = .ok ()) (r : Registry)
    (session : Session) :
    (∃ s, (Registry.set file source).run r session
      = (.ok (), { r with grammar := some ⟨t, some source⟩ }, s)) ∨
    ∃ f s, (Registry.set file source).run r session = (.error f, r, s) ∧
      f.cause = .grammar .notCompilable := by
  have hsource : readSource file source = if t.usable then .ok ⟨t, some source⟩
      else .fail (.grammar .notCompilable) := by
    unfold readSource Grammar.ofRules
    rw [hread]
    simp only [bind, Except.bind, hcheck]
    rfl
  obtain ⟨s, hgrammar⟩ := Work.run_noteFault "registry" "Grammar compilation failed: "
    (show (Work.ofOutcome (readSource file source)).run r session
      = (readSource file source, r, session) from rfl)
  unfold Registry.set
  by_cases husable : t.usable = true
  · rw [hsource, if_pos husable] at hgrammar
    rw [hsource, if_pos husable, Work.run_bind_ok hgrammar]
    exact .inl ⟨_, rfl⟩
  · rw [hsource, if_neg husable] at hgrammar
    rw [hsource, if_neg husable]
    exact .inr ⟨_, s, Work.run_bind_error hgrammar, rfl⟩

/-- **The rules of a template survive their source.** Unless a name in the model files has
a line feed, or a format separates digits by one, the source of the rules is read back as
the same rules; and building a grammar from the template puts these rules into force, or
leaves everything as it was since the rules are not usable. -/
theorem build_compile (hc : c.catalog.Built) (hlines : ∀ f ∈ c.catalog.files, f.model.OneLine)
    (hd : c.catalog.types.find? d.fqn = some d)
    (hformats : ∀ x ∈ c.formats nodes d, ¬ x.1.BreaksLine x.2) {issued : Nat}
    (hset : (c.compile nodes d issued).1 = .ok set) :
    ∃ source, set.write = .ok source ∧
      (∀ file, ∃ t, RuleSet.read source file = .ok t ∧ t.Same set) ∧
      ∀ text, Markup.read (Document.read text).write (some c.settings.grammarFile)
          c.settings.joinSeparator = .ok nodes →
        ∀ (r : Registry) (session : Session), session.issued = issued →
          (∃ g r' s, (build c d text).run r session = (.ok (), r', s) ∧
            r'.grammar = some g ∧ g.source = some source ∧ g.rules.Same set) ∨
          ∃ f s, (build c d text).run r session = (.error f, r, s) ∧
            f.cause = .grammar .notCompilable := by
  obtain ⟨source, hwrite, hsource⟩ := Compiler.read_write_compile hc hlines hd hformats hset
  refine ⟨source, hwrite, fun file => ?_, fun text hread r session hissued => ?_⟩
  · obtain ⟨t, hread, hsame, _⟩ := hsource file
    exact ⟨t, hread, hsame⟩
  · obtain ⟨t, ht, hsame, hcheck⟩ := hsource (some c.settings.grammarFile)
    obtain ⟨s, hs, hbuilding⟩ := Work.run_note .debug "registry"
      ("Building grammar from template markup:\n" ++ (Document.read text).write) none r session
    obtain ⟨_, hgenerate⟩ := run_generate r s hread ((hs.trans hissued).symm ▸ hset) hwrite
    obtain ⟨s, hgenerate⟩ := Work.run_noteFault "registry" "Grammar build failed: " hgenerate
    obtain ⟨s', _, hgenerated⟩ := Work.run_note .debug "registry"
      ("Generated grammar:\n" ++ source) none r s
    unfold build
    rw [Work.run_bind_ok hbuilding, Work.run_bind_ok hgenerate]
    simp only
    rw [Work.run_bind_ok hgenerated]
    rcases run_set ht hcheck r s' with ⟨s, hrun⟩ | ⟨f, s, hrun, hcause⟩
    · rw [Work.run_bind_ok hrun]
      exact .inl ⟨_, _, _, rfl, rfl, rfl, hsame⟩
    · exact .inr ⟨f, s, Work.run_bind_error hrun, hcause⟩

/-- **Usable rules of a template** are the grammar of their source. -/
theorem readSource_compile (hc : c.catalog.Built)
    (hlines : ∀ f ∈ c.catalog.files, f.model.OneLine) (hd : c.catalog.types.find? d.fqn = some d)
    (hformats : ∀ x ∈ c.formats nodes d, ¬ x.1.BreaksLine x.2) {issued : Nat}
    (hset : (c.compile nodes d issued).1 = .ok set) (husable : set.usable = true) :
    ∃ source, set.write = .ok source ∧
      ∀ file, ∃ t, readSource file source = .ok ⟨t, some source⟩ ∧ t.Same set := by
  obtain ⟨source, hwrite, hsource⟩ := Compiler.read_write_compile hc hlines hd hformats hset
  refine ⟨source, hwrite, fun file => ?_⟩
  obtain ⟨t, hread, hsame, hcheck⟩ := hsource (some file)
  refine ⟨t, ?_, hsame⟩
  unfold readSource Grammar.ofRules
  rw [hread]
  simp only [bind, Except.bind, hcheck, hsame.usable, husable]
  rfl

end Registry

/-! ### Line feeds between digits -/

namespace Ledger

open Markup Source

def amount : SchemaType where
  fqn := "org.clausegram.money.MonetaryAmount"
  ns := "org.clausegram.money"
  name := "MonetaryAmount"
  kind := .concept
  properties := [⟨"doubleValue", "Double", "Double", false, false, false, false⟩,
    ⟨"currencyCode", "String", "String", false, false, false, false⟩]

def compiler : Compiler where
  catalog := Catalog.system
  identifier := toString

def nodes (format : String) : List Node := [.formatted "doubleValue" format ⟨1, 3⟩]

/-- The pattern of a number whose thousands are separated by a line feed. -/
def brokenPattern : String :=
  "-?(?:[0-9]\x7b1,3\x7d(?:" ++ "\\\n" ++ "[0-9]\x7b3\x7d)+|[0-9]+)\\.[0-9]\x7b2\x7d"

/-- The catalog has amounts of money, and rules can be made for both formats; the second
begins with the pattern. -/
theorem evaluated : compiler.catalog.types.find? amount.fqn = some amount ∧
    (compiler.compile (nodes "0.00") amount 0).1.isOk = true ∧
    ((compiler.compile (nodes "0\n0.00") amount 0).1.toOption.any fun s =>
      s.start == some topStem && !s.expressions && s.fault?.isNone && s.rules.head?.any fun r =>
        r.name == "Double_80516cabc5f4" && r.alternatives == [[.pattern brokenPattern]]) = true := by
  decide +kernel

theorem oneLine_system : ∀ f ∈ compiler.catalog.files, f.model.OneLine := by
  change ∀ f ∈ Catalog.system.files, f.model.OneLine
  rw [Catalog.files_system]
  have hnames : ∀ m ∈ SystemModel.files, '\n' ∉ m.ns.toList ∧ ∀ d ∈ m.declarations,
      '\n' ∉ d.name.toList ∧ ∀ p ∈ d.properties, '\n' ∉ p.name.toList := by decide_cbv
  intro f hf
  obtain ⟨m, hm, rfl⟩ := List.mem_map.mp hf
  obtain ⟨hns, htypes⟩ := hnames m hm
  exact ⟨hns, fun d hd => (htypes d hd).1, fun d hd => (htypes d hd).2⟩

theorem formats_nodes (format : String) :
    compiler.formats (nodes format) amount = [(.amount, format)] := rfl

/-- Rules of a number with two places are put into force. -/
theorem build_places :
    Catalog.Built compiler.catalog ∧ ∃ set, (compiler.compile (nodes "0.00") amount 0).1 = .ok set ∧
      ∃ source, set.write = .ok source ∧
        ∀ file, ∃ t, RuleSet.read source file = .ok t ∧ t.Same set := by
  have hcompile : ∃ set, (compiler.compile (nodes "0.00") amount 0).1 = .ok set :=
    Outcome.isOk_iff.mp evaluated.2.1
  have hformats : ∀ x ∈ compiler.formats (nodes "0.00") amount, ¬ x.1.BreaksLine x.2 := by
    rw [formats_nodes]
    rintro x hx ⟨_, f, hf, hbreak⟩
    obtain rfl := List.mem_singleton.mp hx
    have hplain : AmountFormat.ofString "0.00" = .ok ⟨[], [], none, some '.', 2⟩ := rfl
    cases hplain.symm.trans hf
    rcases hbreak with hbreak | hbreak <;> exact absurd hbreak (by decide)
  obtain ⟨set, hset⟩ := hcompile
  obtain ⟨source, hwrite, hread, _⟩ := Registry.build_compile .system oneLine_system evaluated.1
    hformats hset
  exact ⟨.system, set, hset, source, hwrite, hread⟩

theorem compile_broken : ∃ set, (compiler.compile (nodes "0\n0.00") amount 0).1 = .ok set ∧
    set.start = some topStem ∧ set.expressions = false ∧ set.fault? = none ∧
      ∃ r rs, set.rules = r :: rs ∧ r.name = "Double_80516cabc5f4" ∧
        r.alternatives = [[.pattern brokenPattern]] := by
  have htest := evaluated.2.2
  cases hset : (compiler.compile (nodes "0\n0.00") amount 0).1 with
  | error f =>
    rw [hset] at htest
    cases htest
  | ok set =>
    rw [hset] at htest
    simp only [Except.toOption, Option.any_some, Bool.and_eq_true, beq_iff_eq,
      Bool.not_eq_true', Option.isNone_iff_eq_none] at htest
    obtain ⟨⟨⟨hstart, hexpressions⟩, hfault⟩, hhead⟩ := htest
    cases hrules : set.rules with
    | nil =>
      rw [hrules] at hhead
      cases hhead
    | cons r rs =>
      rw [hrules] at hhead
      simp only [List.head?_cons, Option.any_some, Bool.and_eq_true, beq_iff_eq] at hhead
      exact ⟨set, rfl, hstart, hexpressions, hfault, r, rs, hrules, hhead⟩

/-- **A line feed between digits** stands behind a backslash in the pattern of the number,
so that the source of the rules is malformed. -/
theorem malformed_broken :
    Catalog.Built compiler.catalog ∧
      ∃ set, (compiler.compile (nodes "0\n0.00") amount 0).1 = .ok set ∧
        ∃ source, set.write = .ok source ∧ ∀ file, ∃ span,
          RuleSet.read source file = .error { cause := .grammar .malformed, file, span } := by
  obtain ⟨set, hset, hstart, hexpressions, hfault, r, rs, hrules, hname, halternatives⟩ :=
    compile_broken
  obtain ⟨start, hstart', hwrite⟩ := RuleSet.write_eq_ok hfault
  cases hstart.symm.trans hstart'
  have hsteady : Slashed.Steady "-?(?:[0-9]\x7b1,3\x7d(?:".toList :=
    Slashed.steady_of_isSteady (by decide)
  exact ⟨.system, set, hset, _, hwrite, RuleSet.malformed_of_break (by decide) hexpressions hrules
    (hname ▸ by decide) halternatives rfl hsteady rfl⟩

end Ledger

end Covenant
