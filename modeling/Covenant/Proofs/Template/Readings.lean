import Covenant.Proofs.Grammar.Exact
import Covenant.Proofs.Markup.Failures
import Covenant.Proofs.Template.Inspection
import Covenant.Proofs.Template.Packages

/-!
What texts come to by the grammar of a template.

* `Grammar.Reads`: a text has a value or is refused, unless a part of it is misread; then it has
  no value.
* `Grammar.reads_of_forms`: so it is for all texts if the rules of the grammar have the forms of
  the rules of templates.
* `Registry.reads_of_builds`: as the rules of a grammar have that was built from the markup of a
  template.
-/

namespace Covenant

/-! ### Rules that differ in comments and origins -/

theorem Rule.Form.congr {r w : Rule} (h : r.Form) (halternatives : w.alternatives = r.alternatives)
    (haction : w.action = r.action) : w.Form := by
  cases h with
  | passes h => exact .passes (haction.trans h)
  | total h htotal => exact .total (haction.trans h) htotal
  | equals h => exact .equals (haction.trans h)
  | concat hne hsymbols h => exact .concat hne (halternatives.trans hsymbols) (haction.trans h)
  | primitive ht hsymbols h => exact .primitive ht (halternatives.trans hsymbols) (haction.trans h)
  | format hw hsymbols h => exact .format hw (halternatives.trans hsymbols) (haction.trans h)

theorem RuleSet.Same.forms {s t : RuleSet} (h : s.Same t) (ht : ∀ r ∈ t.rules, r.Form) :
    ∀ r ∈ s.rules, r.Form := by
  intro r hr
  have hmem : (r.name, r.alternatives, r.action) ∈
      t.rules.map fun r => (r.name, r.alternatives, r.action) :=
    h.rules ▸ List.mem_map_of_mem (f := fun r : Rule => (r.name, r.alternatives, r.action)) hr
  obtain ⟨w, hw, heq⟩ := List.mem_map.mp hmem
  obtain ⟨-, heq⟩ := Prod.mk.inj heq
  obtain ⟨halternatives, haction⟩ := Prod.mk.inj heq
  exact (ht w hw).congr halternatives.symm haction.symm

/-- What a part is misread as does not depend on comments and origins. -/
theorem RuleSet.Same.misread {s t : RuleSet} {ctx : ReadingContext} {e : Derivation} (h : s.Same t)
    (he : e.Misread t ctx) : e.Misread s ctx := by
  have hfind : ∀ {name r}, t.find? name = some r →
      ∃ w, s.find? name = some w ∧ w.action = r.action := by
    intro name r hr
    obtain ⟨w, hw, haction⟩ := h.symm.exists_find hr
    exact ⟨w, hw, haction.2⟩
  cases he with
  | string hr haction hquoted hbody =>
    obtain ⟨w, hw, hsame⟩ := hfind hr
    exact .string hw (hsame.trans haction) hquoted hbody
  | integer hr haction hsign hdigits hlong =>
    obtain ⟨w, hw, hsame⟩ := hfind hr
    exact .integer hw (hsame.trans haction) hsign hdigits hlong
  | format hr hrule haction hmisread =>
    obtain ⟨w, hw, hsame⟩ := hfind hr
    exact .format hw hrule (hsame.trans haction) hmisread

/-! ### Texts -/

namespace Grammar

variable {g : Grammar} {text : String} {ctx : ReadingContext}

/-- **A text with a part that is misread**: the rule of the part matches it, and its action does
not turn it into a value. -/
def Misreads (g : Grammar) (text : String) (ctx : ReadingContext) : Prop :=
  ∃ d, g.parse text = .ok d ∧ ∃ e ∈ d.within, e.Misread g.rules ctx

/-- **A value, or one of the refusals**: a text that cannot be read, or one that can be read in
several ways. -/
def Expected (o : Outcome Value) : Prop :=
  (∃ v, o = .ok v) ∨ ∃ f, o = .error f ∧ ((∃ r, f.cause = .reading r) ∨ f.cause = .ambiguous)

/-- **What a text comes to**: a value or a refusal if no part is misread. Otherwise it has no value:
it is refused for another part, or fails as a misread part does, which is no refusal
(`Derivation.Misread.evaluate`). -/
structure Reads (g : Grammar) (text : String) (ctx : ReadingContext) (o : Outcome Value) : Prop where
  expected : ¬ g.Misreads text ctx → Expected o
  failed : g.Misreads text ctx → ∃ f, o = .error f ∧ (Expected o ∨ ∃ d e, g.parse text = .ok d ∧
    e ∈ d.within ∧ e.Misread g.rules ctx ∧ e.evaluate g.rules ctx = .error f)

/-- The file that a text stands in matters for faults only. -/
theorem parse_file {file : Option String} {d : Derivation} (h : g.parse text file = .ok d) :
    g.parse text = .ok d := by
  unfold parse at h ⊢
  cases hverdict : g.derive text <;> rw [hverdict] at h
  · cases h
  · exact h
  · cases h

/-- **Reading by rules of the forms of the rules of templates.** -/
theorem reads_of_forms (hcheck : g.rules.check = .ok ()) (hforms : ∀ r ∈ g.rules.rules, r.Form)
    (text : String) (ctx : ReadingContext) (file : Option String) :
    g.Reads text ctx (g.read text ctx file) := by
  rcases parse_cases g text file with ⟨d, hparse, hd⟩ | ⟨f, hparse, hcause⟩
  · have hread : g.read text ctx file = d.evaluate g.rules ctx := by
      rw [read, hparse]
      rfl
    have htext := parse_file hparse
    rw [hread]
    obtain hanswered | ⟨e, he, hmisread, hsame⟩ := hd.answered hcheck hforms
    · have hexpected : Expected (d.evaluate g.rules ctx) := by
        rcases hanswered with ⟨v, hv⟩ | ⟨r, hr⟩
        · exact .inl ⟨v, hv⟩
        · exact .inr ⟨_, hr, .inl ⟨r, rfl⟩⟩
      refine ⟨fun _ => hexpected, ?_⟩
      rintro ⟨d', htext', e, he, hmisread⟩
      cases htext.symm.trans htext'
      cases heval : d.evaluate g.rules ctx with
      | error f => exact ⟨f, rfl, .inl (heval ▸ hexpected)⟩
      | ok v =>
        obtain ⟨w, hw⟩ := Derivation.exists_of_within heval e he
        obtain ⟨f, hf, -⟩ := hmisread.evaluate
        cases hw.symm.trans hf
    · obtain ⟨f, hf, -⟩ := hmisread.evaluate
      exact ⟨fun hnone => absurd ⟨d, htext, e, he, hmisread⟩ hnone,
        fun _ => ⟨f, hsame.trans hf, .inr ⟨d, e, htext, he, hmisread, hf⟩⟩⟩
  · have hread : g.read text ctx file = .error f := by
      rw [read, hparse]
      rfl
    have hexpected : Expected (g.read text ctx file) := .inr ⟨f, hread, hcause⟩
    exact ⟨fun _ => hexpected, fun _ => ⟨f, hread, .inl hexpected⟩⟩

/-- Whether trying everything finds one tree of a text, and its derivation passes a test. -/
def readsOnly (s : RuleSet) (start text : String) (test : Derivation → Bool) : Bool :=
  (s.listed.exhaust text.toList 10 (.goal (.rule start)) 0 text.toList.length).any fun
    | [t] => decide (t.height ≤ s.listed.depth text.toList.length) && test t.derivation
    | _ => false

/-- Parsing finds the derivation that passed the test, by all rules that are the same. -/
theorem exists_parse {s : RuleSet} (hsame : g.rules.Same s) {start : String}
    (hstart : s.start = some start) {text : String} {test : Derivation → Bool}
    (h : readsOnly s start text test = true) (file : Option String) :
    ∃ d, g.parse text file = .ok d ∧ test d = true := by
  have hcfg : g.rules.cfg = s.listed := hsame.cfg.trans RuleSet.cfg_eq_listed
  have hname : g.rules.start.getD "" = start := by
    rw [hsame.start, hstart]
    rfl
  unfold readsOnly at h
  cases hts : s.listed.exhaust text.toList 10 (.goal (.rule start)) 0 text.toList.length with
  | none =>
    rw [hts] at h
    cases h
  | some ts =>
    rw [hts, Option.any_some] at h
    split at h
    · obtain ⟨hheight, htest⟩ := (Bool.and_eq_true _ _).mp h
      exact ⟨_, parse_of_exhaust (hcfg ▸ hname ▸ hts) (hcfg ▸ of_decide_eq_true hheight) file, htest⟩
    · cases h

end Grammar

/-! ### Templates -/

namespace Registry

open Work

variable {c : Markup.Compiler} {d : SchemaType} {text : String} {r r' : Registry} {g : Grammar}

theorem run_extract (hg : r.grammar = some g) (type : SchemaType) (document : Document)
    (ctx : ReadingContext) (file : Option String) (session : Session) :
    ((extract type document ctx file).run r session).1 = g.read document.write ctx file := by
  have hcurrent : r.current = .ok g := by
    rw [current, hg]
  have hends : (extract type document ctx file).Ends r
      (fun v _ => (r.current >>= fun g => g.read document.write ctx file) = .ok v)
      fun f _ => (r.current >>= fun g => g.read document.write ctx file) = .error f := by
    unfold extract
    exact (read_ends document.write ctx file r).bind
      (fun v r' h => Ends.of_note (ends_pure h.2)) fun f r' h => h.2
  rw [hcurrent] at hends
  rcases hrun : (extract type document ctx file).run r session with ⟨f | v, r', s⟩
  · exact (hends.error hrun).symm
  · exact (hends.ok hrun).symm

/-- The grammar of the source of rules has these rules, but for comments and origins. -/
theorem same_of_readSource (hc : c.catalog.Built) (hlines : ∀ f ∈ c.catalog.files, f.model.OneLine)
    (hd : c.catalog.types.find? d.fqn = some d) {nodes : List Markup.Node}
    (hformats : ∀ x ∈ c.formats nodes d, ¬ x.1.BreaksLine x.2) {issued : Nat} {set : RuleSet}
    (hset : (c.compile nodes d issued).1 = .ok set) {source : String}
    (hwrite : set.write = .ok source) {file : String} (hsource : readSource file source = .ok g) :
    g.rules.Same set ∧ g.rules.check = .ok () := by
  obtain ⟨source', hwrite', hread⟩ :=
    Markup.Compiler.read_write_compile hc hlines hd hformats hset
  cases hwrite.symm.trans hwrite'
  obtain ⟨t, ht, hsame, hcheck⟩ := hread (some file)
  have hrules : g.rules = t := by
    unfold readSource Grammar.ofRules at hsource
    rw [ht] at hsource
    simp only [bind, Except.bind, hcheck] at hsource
    split at hsource
    · cases hsource
      rfl
    · cases hsource
  rw [hrules]
  exact ⟨hsame, hcheck⟩

/-- A grammar that was built has the rules of the markup. -/
theorem Made.forms (hc : c.catalog.Built) (hlines : ∀ f ∈ c.catalog.files, f.model.OneLine)
    (hd : c.catalog.types.find? d.fqn = some d)
    (hformats : ∀ nodes, Markup.read (Document.read text).write (some c.settings.grammarFile)
      c.settings.joinSeparator = .ok nodes → ∀ x ∈ c.formats nodes d, ¬ x.1.BreaksLine x.2)
    (h : Made c d text g) : g.rules.check = .ok () ∧ ∀ r ∈ g.rules.rules, r.Form := by
  obtain ⟨nodes, source, ⟨hnodes, issued, set, hset, hwrite⟩, hsource⟩ := h
  obtain ⟨hsame, hcheck⟩ := same_of_readSource hc hlines hd (hformats nodes hnodes) hset hwrite hsource
  exact ⟨hcheck, hsame.forms (Markup.Compiler.formed_compile hset).1⟩

/-- **Reading fails as it tells, or on texts that are misread.** By a grammar that was built from
the markup of a template, every text that is given to a reader, and every document, has a value
or is refused, unless a part of it is misread; it has no value then. -/
theorem reads_of_builds (hc : c.catalog.Built) (hlines : ∀ f ∈ c.catalog.files, f.model.OneLine)
    (hd : c.catalog.types.find? d.fqn = some d)
    (hformats : ∀ nodes, Markup.read (Document.read text).write (some c.settings.grammarFile)
      c.settings.joinSeparator = .ok nodes → ∀ x ∈ c.formats nodes d, ¬ x.1.BreaksLine x.2)
    (hbuilds : Builds c d text r r') : ∃ g, r'.grammar = some g ∧
      ∀ (ctx : ReadingContext) (file : Option String),
        (∀ (pieces : List String) (input : String), g.Reads (String.join pieces ++ input) ctx
          (Reader.read { grammar := g, pieces } input ctx file).1) ∧
        ∀ (type : SchemaType) (document : Document) (session : Session),
          g.Reads document.write ctx ((extract type document ctx file).run r' session).1 := by
  obtain ⟨g, b, rfl, hmade⟩ := hbuilds.made
  obtain ⟨hcheck, hforms⟩ := hmade.forms hc hlines hd hformats
  refine ⟨g, rfl, fun ctx file => ⟨fun pieces input => ?_, fun type document session => ?_⟩⟩
  · rw [Grammar.read_pieces]
    exact Grammar.reads_of_forms hcheck hforms _ ctx file
  · rw [run_extract rfl]
    exact Grammar.reads_of_forms hcheck hforms _ ctx file

end Registry

/-! ### An invoice -/

namespace Invoice

open Markup

/-- A model of invoices: by whom they are, and when they are due. -/
def model : ModelFile where
  ns := "invoice"
  declarations :=
    [{ kind := .asset, name := "Invoice", extends? := some "Clause"
       properties := [{ name := "by", type := "String" }, { name := "due", type := "DateTime" }] }]

def markup : String :=
  "\x7b\x7bby\x7d\x7d \x7b\x7bdue\x7d\x7d"

def compiler : Compiler where
  catalog := (Catalog.system.add model.toValue).2
  identifier := toString

def type : SchemaType :=
  (compiler.catalog.types.find? "invoice.Invoice").getD default

def nodes : List Node :=
  [.binding "by" none ⟨1, 3⟩, .text " " false ⟨1, 7⟩, .binding "due" none ⟨1, 10⟩]

/-- Whether nodes are those of the markup. -/
def isRead : List Node → Bool
  | [.binding a none p, .text b false q, .binding c none r] =>
    [a, b, c] == ["by", " ", "due"] && decide ([p, q, r] = [⟨1, 3⟩, ⟨1, 7⟩, ⟨1, 10⟩])
  | _ => false

theorem eq_nodes {level : List Node} (h : isRead level = true) : level = nodes := by
  unfold isRead at h
  split at h
  · simp only [Bool.and_eq_true, beq_iff_eq, decide_eq_true_eq, List.cons.injEq, and_true] at h
    obtain ⟨⟨rfl, rfl, rfl⟩, rfl, rfl, rfl⟩ := h
    rfl
  · cases h

theorem markup_tree : (Markup.cfg.exhaust markup.toList 20 (.goal .level) 0 markup.toList.length).any
    (fun ts => match ts with
      | [t] => (levelOf (Text.Position.of markup.toList) compiler.settings.joinSeparator t).toOption.any
          fun level => isRead (markLast level)
      | _ => false) = true := by
  decide +kernel

def text : String :=
  "\"Ann\" 03/05/2024"

def value : Value :=
  .object [("$class", .text "invoice.Invoice"), ("clauseId", .text "0"), ("by", .text "Ann"),
    ("due", .text "2024-03-05T00:00:00.000Z")]

def slip : String :=
  "\"\\x\" 03/05/2024"

/-- A context in whose time zone the clocks are thirty hours ahead. -/
def ahead : ReadingContext where
  zones := fun _ => some ⟨fun _ => 30 * 3600⟩

/-- The texts of tokens, if there is nothing else. -/
def tokens? : List Derivation → Option (List String)
  | [] => some []
  | .token t :: ds => (tokens? ds).map (t :: ·)
  | _ => none

/-- Whether a derivation is a node of tokens with these texts, of a rule with this action. -/
def isNode (s : RuleSet) (action : Option Action) (texts : List String) : Derivation → Bool
  | .node name _ ds => (s.find? name).any (·.action == action) && tokens? ds == some texts
  | _ => false

def stringAction : Action := ⟨"string", []⟩

def dateAction : Action := ⟨"datetime", [⟨"format", .const "MM/DD/YYYY"⟩]⟩

theorem evaluated : compiler.catalog.types.find? type.fqn = some type ∧
    (∀ f ∈ compiler.catalog.files, '\n' ∉ f.model.ns.toList ∧
      ∀ d ∈ f.model.declarations, '\n' ∉ d.name.toList ∧ ∀ p ∈ d.properties, '\n' ∉ p.name.toList) ∧
    (Document.read markup).write = markup ∧
    (compiler.compile nodes type 0).1.toOption.any (fun set => set.usable &&
      Grammar.readsOnly set topStem text (fun d =>
        (d.evaluate set {}).toOption.any value.identical &&
          d.within.any (isNode set dateAction ["03", "/", "05", "/", "2024"])) &&
      Grammar.readsOnly set topStem slip fun d =>
        d.within.any (isNode set stringAction ["\"\\x\""])) = true := by
  decide +kernel

theorem eq_tokens {ds : List Derivation} {texts : List String} (h : tokens? ds = some texts) :
    ds = texts.map .token := by
  fun_induction tokens? ds generalizing texts with
  | case1 =>
    cases h
    rfl
  | case2 t ds ih =>
    obtain ⟨ts, hts, rfl⟩ := Option.map_eq_some_iff.mp h
    rw [ih hts, List.map_cons]
  | case3 => cases h

theorem exists_node {s : RuleSet} {action : Option Action} {texts : List String} {d : Derivation}
    (h : isNode s action texts d = true) : ∃ name q r, s.find? name = some r ∧ r.action = action ∧
      d = .node name q (texts.map .token) := by
  unfold isNode at h
  split at h
  · rename_i name q ds
    obtain ⟨hrule, htokens⟩ := (Bool.and_eq_true _ _).mp h
    obtain ⟨r, hfind, haction⟩ := (Option.any_eq_true _ _).mp hrule
    exact ⟨name, q, r, hfind, by simpa using haction, by rw [← eq_tokens (by simpa using htokens)]⟩
  · cases h

theorem read_markup (file : Option String) :
    Markup.read (Document.read markup).write file compiler.settings.joinSeparator = .ok nodes := by
  have htree := markup_tree
  rw [evaluated.2.2.1]
  cases hts : Markup.cfg.exhaust markup.toList 20 (.goal .level) 0 markup.toList.length with
  | none =>
    rw [hts] at htree
    cases htree
  | some ts =>
    rw [hts, Option.any_some] at htree
    split at htree
    · obtain ⟨level, hlevel, htest⟩ := Outcome.exists_of_any htree
      rw [read_of_exhaust hts hlevel, eq_nodes htest]
    · cases htree

theorem misread_slip {s : RuleSet} {e : Derivation}
    (h : isNode s stringAction ["\"\\x\""] e = true) : e.Misread s {} := by
  obtain ⟨name, q, r, hfind, haction, rfl⟩ := exists_node h
  have hbody : ¬ JsonText.IsBody ['\\', 'x'] := fun h =>
    absurd ((JsonText.isBody_short_iff (by decide)).mp h).1 (by decide)
  exact .string hfind haction (.escape .nil) hbody

/-- A day of a zone in which the clocks are more than a day ahead. -/
theorem misread_ahead {s : RuleSet} {e : Derivation}
    (h : isNode s dateAction ["03", "/", "05", "/", "2024"] e = true) : e.Misread s ahead := by
  obtain ⟨name, q, r, hfind, haction, rfl⟩ := exists_node h
  obtain ⟨f, pieces, hf, hsplit, hyear, hday, hoffset⟩ : ∃ f pieces,
      DateFormat.ofString "MM/DD/YYYY" = .ok f ∧
        splitBySymbols? f.symbols "03/05/2024" = some pieces ∧ (f.collect pieces).YearInRange ∧
          (f.collect pieces).DayInRange ∧ (f.collect pieces).offset = none :=
    ⟨⟨[.field .month2, .literal ['/'], .field .day2, .literal ['/'], .field .year]⟩,
      ["03", "/", "05", "/", "2024"].map String.toList, by rfl, by decide +kernel, by decide +kernel,
      by decide +kernel, by decide +kernel⟩
  have hrule : Formatted.date.rule "MM/DD/YYYY" =
      .ok (formatRule "DateTime" "datetime" "MM/DD/YYYY" f.symbols) :=
    Outcome.bind_eq_ok.mpr ⟨f, hf, rfl⟩
  refine .format hfind hrule haction ⟨f, pieces, hf, hsplit, hyear, hday, ?_⟩
  rw [hoffset]
  change 86400 ≤ (30 * 3600 : Int).natAbs
  decide

/-- **An invoice** is read; what is between the quotes of another one is no string; and by a clock
that is more than a day ahead the first one is not read either. -/
theorem reads_invoice : ∃ r' g, Registry.Builds compiler type markup {} r' ∧ r'.grammar = some g ∧
    (∀ (ctx : ReadingContext) (pieces : List String) (input : String),
      g.Reads (String.join pieces ++ input) ctx (Reader.read { grammar := g, pieces } input ctx).1) ∧
    (Reader.read { grammar := g } text).1 = .ok value ∧ g.Misreads slip {} ∧
      g.Misreads text ahead := by
  obtain ⟨hd, hlines, -, hset⟩ := evaluated
  have hlines : ∀ f ∈ compiler.catalog.files, f.model.OneLine := fun f hf =>
    ⟨(hlines f hf).1, fun d hd => ((hlines f hf).2 d hd).1, fun d hd => ((hlines f hf).2 d hd).2⟩
  have hc : compiler.catalog.Built := .add .system _ _
  have hnone : compiler.formats nodes type = [] := by
    simp [Compiler.formats, Compiler.formatsOf, nodes]
  have hformats : ∀ level, Markup.read (Document.read markup).write
      (some compiler.settings.grammarFile) compiler.settings.joinSeparator = .ok level →
        ∀ x ∈ compiler.formats level type, ¬ x.1.BreaksLine x.2 := by
    intro level hlevel
    cases (read_markup _).symm.trans hlevel
    simp [hnone]
  obtain ⟨set, hset, htest⟩ := Outcome.exists_of_any hset
  obtain ⟨htest, hslip⟩ := (Bool.and_eq_true _ _).mp htest
  obtain ⟨husable, htext⟩ := (Bool.and_eq_true _ _).mp htest
  obtain ⟨source, hwrite, hsource⟩ :=
    Registry.readSource_compile hc hlines hd (by simp [hnone]) hset husable
  obtain ⟨t, hg, hsame⟩ := hsource compiler.settings.grammarFile
  have hstart : set.start = some topStem := (Compiler.joined_of_compile hc hd hset).2.2.2
  obtain ⟨s, hrun⟩ := @Registry.run_build compiler type markup source _ _ _ {} (read_markup _) hset
    hwrite hg {}
  have hbuilds : Registry.Builds compiler type markup {}
      ⟨some ⟨t, some source⟩, some ⟨(Document.read markup).write, nodes⟩⟩ := ⟨{}, s, hrun⟩
  obtain ⟨g, hgrammar, hreads⟩ := Registry.reads_of_builds hc hlines hd hformats hbuilds
  obtain rfl : ⟨t, some source⟩ = g := Option.some.inj hgrammar
  refine ⟨_, _, hbuilds, rfl, fun ctx => (hreads ctx none).1, ?_, ?_, ?_⟩
  · obtain ⟨d, hparse, hd⟩ := Grammar.exists_parse (g := ⟨t, some source⟩) hsame hstart htext none
    obtain ⟨v, hv, hvalue⟩ := Outcome.exists_of_any ((Bool.and_eq_true _ _).mp hd).1
    rw [Grammar.reader_read, hparse, Value.eq_of_identical hvalue, ← hv, ← hsame.evaluate]
    rfl
  · obtain ⟨d, hparse, hd⟩ := Grammar.exists_parse (g := ⟨t, some source⟩) hsame hstart hslip none
    obtain ⟨e, he, hnode⟩ := List.any_eq_true.mp hd
    exact ⟨d, hparse, e, he, hsame.misread (misread_slip hnode)⟩
  · obtain ⟨d, hparse, hd⟩ := Grammar.exists_parse (g := ⟨t, some source⟩) hsame hstart htext none
    obtain ⟨e, he, hnode⟩ := List.any_eq_true.mp ((Bool.and_eq_true _ _).mp hd).2
    exact ⟨d, hparse, e, he, hsame.misread (misread_ahead hnode)⟩

end Invoice

end Covenant
