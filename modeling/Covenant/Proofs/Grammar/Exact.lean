import Covenant.Grammar.Reading
import Covenant.Proofs.Grammar.Trees
import Covenant.Proofs.Pattern.Tokens

/-!
Reading is exact.

* `RuleSet.Consuming`: rule sets in which nothing is derived over and over again without
  reading any text.
* `RuleSet.Consuming.not_leads`: no goal of the grammar of such a set leads back to itself.
* `Grammar.read_exact`: a text is refused when it has no derivation, ambiguous when it has
  several, and otherwise has the value of the only one.
-/

namespace Covenant

namespace Goal

/-- The rule that a goal stands for, if it stands for one. -/
def head : Goal → String
  | .rule name => name
  | .optional y | .many y => y.value

def kind : Goal → SymbolKind
  | .rule _ => .rule
  | .optional y | .many y => y.kind

end Goal

namespace RuleSet

variable {s : RuleSet}

/-- One rule derives another without reading anything besides it. -/
def Leads (s : RuleSet) (a b : String) : Prop :=
  ∃ r, s.find? a = some r ∧ ∃ before x after, before ++ x :: after ∈ r.alternatives ∧
    x.kind = .rule ∧ x.value = b ∧ ∀ y ∈ before ++ after, ∃ d, Derives s y [] d

/-- **Rule sets that read something in every round**: no literal or pattern takes the empty
text, what is repeated does not derive it, and no rule derives itself without reading
anything. -/
structure Consuming (s : RuleSet) : Prop where
  tokens : ∀ x, s.Occurs x → x.kind ≠ .rule → ¬ x.Accepts []
  repeated : ∀ x, s.Occurs x → x.cardinality = .many → ∀ d, ¬ Derives s x.single [] d
  rules : ∀ name, ¬ Relation.TransGen s.Leads name name

/-- No repetition goes on without reading anything. -/
theorem Consuming.not_vanishes (h : s.Consuming) {y : Symbol} (hy : Goal.many y ∈ s.goals) :
    ¬ s.cfg.Vanishes y.base := by
  rintro ⟨cs, i, t, ht⟩
  obtain ⟨x, hx, hgoal⟩ := (exists_occurs_of_mem_goals hy).resolve_left (by simp)
  obtain ⟨hmany, rfl⟩ : x.cardinality = .many ∧ x.single = y := by
    unfold Symbol.goal? at hgoal
    split at hgoal <;> simp_all
  have hd := derives_of_isPiece ht x.single rfl
  rw [stretch_self] at hd
  exact h.repeated x hx hmany _ hd

theorem Consuming.known (h : s.Consuming) (x : Symbol) (hx : s.Occurs x) : s.Known x :=
  ⟨fun _ ha => mem_goals_of_occurs hx ha, h.tokens x hx⟩

/-! ### Goals that lead back to themselves -/

theorem derives_nil_of_vanishes {x : Symbol} (h : s.cfg.Vanishes x.part) :
    ∃ d, Derives s x [] d := by
  obtain ⟨cs, i, t, ht⟩ := h
  have hd := derives_of_isPiece ht x rfl
  rw [stretch_self] at hd
  exact ⟨_, hd⟩

/-- A rule leads to the rules that its alternatives mention, optional and repeated ones
included. -/
theorem leads_of_rule {name : String} {b : Goal} (h : s.cfg.Leads (.rule name) b)
    (hkind : b.kind = .rule) : s.Leads name b.head := by
  obtain ⟨ps, hps, before, after, rfl, hbeside⟩ := h
  obtain ⟨q, hq⟩ := List.mem_iff_getElem?.mp hps
  obtain ⟨r, alternative, hfind, halternative, hparts⟩ :=
    Goal.getElem_rule_iff.mp (getElem_productions_iff.mp hq).2
  obtain ⟨xs, ys, rfl, rfl, hys⟩ := List.map_eq_append_iff.mp hparts.symm
  obtain ⟨x, zs, rfl, hx, rfl⟩ := List.map_eq_cons_iff.mp hys
  have hsame : x.kind = b.kind ∧ x.value = b.head := by
    rcases Symbol.part_eq_goal hx with ⟨hrule, _, rfl⟩ | ⟨_, rfl⟩ | ⟨_, rfl⟩
    · exact ⟨hrule, rfl⟩
    · exact ⟨rfl, rfl⟩
    · exact ⟨rfl, rfl⟩
  refine ⟨r, hfind, xs, x, zs, List.mem_of_getElem? halternative, hsame.1.trans hkind, hsame.2, ?_⟩
  intro y hy
  refine derives_nil_of_vanishes (hbeside _ ?_)
  rw [← List.map_append]
  exact List.mem_map_of_mem hy

/-- **Optional and repeated symbols lead to what they stand for** and nowhere else: a
repetition is no longer part of itself when what is repeated reads something. -/
theorem leads_of_helper (hs : s.Consuming) {a b : Goal} (h : s.cfg.Leads a b)
    (hhelper : ∀ name, a ≠ .rule name) : a.kind = .rule ∧ b = .rule a.head := by
  obtain ⟨ps, hps, before, after, rfl, hbeside⟩ := h
  obtain ⟨q, hq⟩ := List.mem_iff_getElem?.mp hps
  obtain ⟨hgoal, hq⟩ := getElem_productions_iff.mp hq
  have hbase : ∀ {y : Symbol}, y.base = .goal b → y.kind = .rule ∧ b = .rule y.value := by
    intro y hy
    rcases Symbol.part_eq_goal (y.part_single.trans hy) with ⟨hkind, _, rfl⟩ | ⟨h, _⟩ | ⟨h, _⟩
    · exact ⟨hkind, rfl⟩
    · cases h
    · cases h
  cases a with
  | rule name => exact absurd rfl (hhelper name)
  | optional y =>
    rcases Goal.getElem_optional_iff.mp hq with ⟨_, hps⟩ | ⟨_, hps⟩
    · simp at hps
    · cases before with
      | nil => exact hbase (List.cons.inj hps).1.symm
      | cons p before => simp at hps
  | many y =>
    rcases Goal.getElem_many_iff.mp hq with ⟨_, hps⟩ | ⟨_, hps⟩
    · simp at hps
    · match before, hps with
      | [], hps =>
        -- the shorter repetition: what comes after it reads something
        obtain ⟨_, rfl⟩ := List.cons.inj hps
        exact absurd (hbeside y.base (by simp)) (hs.not_vanishes hgoal)
      | [p], hps => exact hbase (List.cons.inj (List.cons.inj hps).2).1.symm
      | p :: p' :: before, hps => simp at hps

/-- **A way from a goal to a rule** is one between rules; only from an optional or repeated
symbol to its own rule it may take no step of those. -/
theorem Consuming.leads_rule (hs : s.Consuming) {a b : Goal} (h : Relation.TransGen s.cfg.Leads a b)
    {name : String} (hb : b = .rule name) : a.kind = .rule ∧
      (Relation.TransGen s.Leads a.head name ∨ (∀ n, a ≠ .rule n) ∧ a.head = name) := by
  subst hb
  induction h using Relation.TransGen.head_induction_on with
  | @single a hstep =>
    by_cases hhelper : ∀ n, a ≠ .rule n
    · obtain ⟨hkind, heq⟩ := leads_of_helper hs hstep hhelper
      exact ⟨hkind, .inr ⟨hhelper, (Goal.rule.inj heq).symm⟩⟩
    · obtain ⟨n, rfl⟩ := not_forall_not.mp hhelper
      exact ⟨rfl, .inl (.single (leads_of_rule hstep rfl))⟩
  | @head a c hstep _ ih =>
    obtain ⟨hkind, hrest⟩ := ih
    by_cases hhelper : ∀ n, a ≠ .rule n
    · obtain ⟨hkind', rfl⟩ := leads_of_helper hs hstep hhelper
      exact ⟨hkind', .inl (hrest.resolve_right fun h => h.1 _ rfl)⟩
    · obtain ⟨n, rfl⟩ := not_forall_not.mp hhelper
      have hleads := leads_of_rule hstep hkind
      rcases hrest with hrest | ⟨_, rfl⟩
      · exact ⟨rfl, .inl (.head hleads hrest)⟩
      · exact ⟨rfl, .inl (.single hleads)⟩

/-- **No goal leads back to itself.** -/
theorem Consuming.not_leads (hs : s.Consuming) (a : Goal) :
    ¬ Relation.TransGen s.cfg.Leads a a := by
  have hrule : ∀ name, ¬ Relation.TransGen s.cfg.Leads (.rule name) (.rule name) := by
    intro name h
    exact hs.rules name ((hs.leads_rule h rfl).2.resolve_right fun h => h.1 name rfl)
  intro h
  by_cases hhelper : ∀ n, a ≠ .rule n
  · -- the first step of the way goes to a rule, which the way then comes back to
    obtain ⟨c, hstep, hback⟩ := Relation.TransGen.head'_iff.mp h
    obtain ⟨_, rfl⟩ := leads_of_helper hs hstep hhelper
    exact hrule _ (.tail' hback hstep)
  · obtain ⟨n, rfl⟩ := not_forall_not.mp hhelper
    exact hrule n h

/-! ### Trees and derivations -/

/-- **What a rule derives** is what the trees of the grammar stand for, one each. -/
theorem derives_iff_isPiece (hknown : ∀ x, s.Occurs x → s.Known x) {name : String} {cs : List Char}
    {d : Derivation} : Derives s (.rule name) cs d ↔
      ∃ t, s.cfg.IsPiece cs (.goal (.rule name)) 0 cs.length t ∧ t.derivation = d := by
  constructor
  · intro h
    have hrule : s.Known (.rule name) := ⟨fun _ h => (nomatch h), fun h => absurd rfl h⟩
    have hcs : cs = [] ++ cs ++ [] := by simp
    have htree := exists_isPiece hknown h hrule hcs
    rwa [List.length_nil, Nat.zero_add] at htree
  · rintro ⟨t, ht, rfl⟩
    have hd := derives_of_isPiece ht (.rule name) rfl
    rwa [stretch_all] at hd

/-- Whether no literal or pattern takes the empty text. -/
def takesText (s : RuleSet) : Bool :=
  s.rules.all fun r => r.alternatives.all fun xs => xs.all fun x =>
    x.kind == .rule || x.toPattern.match? [] != some 0

/-- **The derivations of a rule** are found by trying everything, if no literal or pattern takes the
empty text. -/
theorem derives_iff_mem (htokens : s.takesText = true) (fuel : Nat) {name : String} {cs : List Char}
    {ds : List Derivation} (h : (s.listed.exhaust cs fuel (.goal (.rule name)) 0 cs.length).map
      (List.map Tree.derivation) = some ds) {d : Derivation} :
    Derives s (.rule name) cs d ↔ d ∈ ds := by
  have hknown : ∀ x, s.Occurs x → s.Known x := by
    rintro x hx
    refine ⟨fun _ ha => mem_goals_of_occurs hx ha, fun hkind => ?_⟩
    obtain ⟨r, hr, xs, hxs, hx⟩ := hx
    simp only [takesText, List.all_eq_true] at htokens
    have htoken := htokens r hr xs hxs x hx
    simp only [Bool.or_eq_true, beq_iff_eq, bne_iff_ne] at htoken
    exact htoken.resolve_left hkind
  obtain ⟨ts, hts, rfl⟩ := Option.map_eq_some_iff.mp h
  rw [← cfg_eq_listed] at hts
  rw [derives_iff_isPiece hknown, List.mem_map]
  simp only [Cfg.mem_exhaust_iff hts]

theorem exists_start (hcheck : s.check = .ok ()) : ∃ start, s.start = some start := by
  rw [check_eq_ok_iff, fault?] at hcheck
  cases hstart : s.start with
  | none => simp [hstart] at hcheck
  | some start => exact ⟨start, rfl⟩

end RuleSet

/-! ### Reading -/

namespace Grammar

def HasDerivation (g : Grammar) (text : String) (d : Derivation) : Prop :=
  ∃ start, g.rules.start = some start ∧ Derives g.rules (.rule start) text.toList d

variable {g : Grammar}

theorem hasDerivation_iff (hcheck : g.rules.check = .ok ()) (hrules : g.rules.Consuming)
    {text : String} {d : Derivation} : g.HasDerivation text d ↔
      ∃ t, g.rules.cfg.IsPiece text.toList (.goal (.rule (g.rules.start.getD ""))) 0
        text.toList.length t ∧ t.derivation = d := by
  obtain ⟨start, hstart⟩ := RuleSet.exists_start hcheck
  rw [HasDerivation, hstart, Option.getD_some, ← RuleSet.derives_iff_isPiece hrules.known]
  simp

/-- **The derivations of a text** are told apart: none, one or several. -/
theorem derive_spec (hcheck : g.rules.check = .ok ()) (hrules : g.rules.Consuming)
    (text : String) : match g.derive text with
      | .none _ _ => ∀ d, ¬ g.HasDerivation text d
      | .one t => ∀ d, g.HasDerivation text d ↔ d = t.derivation
      | .several => ∃ d d', d ≠ d' ∧ g.HasDerivation text d ∧ g.HasDerivation text d' := by
  have hspec := Cfg.read_spec (fun _ => RuleSet.mem_goals_of_productions) RuleSet.tokens_cfg_le
    hrules.not_leads (.rule (g.rules.start.getD "")) text.toList
  simp only [hasDerivation_iff hcheck hrules]
  unfold derive
  split <;> rename_i hverdict <;> rw [hverdict] at hspec
  · rintro d ⟨t, ht, _⟩
    exact hspec t ht
  · intro d
    constructor
    · rintro ⟨t, ht, rfl⟩
      rw [(hspec t).mp ht]
    · rintro rfl
      exact ⟨_, (hspec _).mpr rfl, rfl⟩
  · obtain ⟨t, t', hne, ht, ht'⟩ := hspec
    exact ⟨_, _, fun heq => hne (isPiece_unique ht ht' heq), ⟨t, ht, rfl⟩, ⟨t', ht', rfl⟩⟩

/-- **What parsing tells of the derivations of a text.** -/
theorem parse_spec (hcheck : g.rules.check = .ok ()) (hrules : g.rules.Consuming) (text : String)
    (file : Option String) : match g.parse text file with
      | .ok d => ∀ d', g.HasDerivation text d' ↔ d' = d
      | .error f => (f = { cause := .ambiguous, file } ∧
          ∃ d d', d ≠ d' ∧ g.HasDerivation text d ∧ g.HasDerivation text d') ∨
        ((∃ c, f.cause = .reading c) ∧ ∀ d, ¬ g.HasDerivation text d) := by
  have hspec := derive_spec hcheck hrules text
  unfold parse
  cases hverdict : g.derive text with
  | none furthest expected =>
    rw [hverdict] at hspec
    exact .inr ⟨⟨_, rfl⟩, hspec⟩
  | one t =>
    rw [hverdict] at hspec
    exact hspec
  | several =>
    rw [hverdict] at hspec
    exact .inl ⟨rfl, hspec⟩

/-- A derivation that parsing finds is one of the text, and parsing fails with a refusal only,
whatever the rules. -/
theorem parse_cases (g : Grammar) (text : String) (file : Option String) :
    (∃ d, g.parse text file = .ok d ∧
      Derives g.rules (.rule (g.rules.start.getD "")) text.toList d) ∨
    ∃ f, g.parse text file = .error f ∧ ((∃ c, f.cause = .reading c) ∨ f.cause = .ambiguous) := by
  unfold parse
  cases hverdict : g.derive text with
  | none furthest expected => exact .inr ⟨_, rfl, .inl ⟨_, rfl⟩⟩
  | one t =>
    refine .inl ⟨_, rfl, ?_⟩
    have htree := Cfg.isPiece_of_read (fun _ => RuleSet.mem_goals_of_productions)
      RuleSet.tokens_cfg_le hverdict
    have hd := derives_of_isPiece htree (.rule (g.rules.start.getD "")) rfl
    rwa [stretch_all] at hd
  | several => exact .inr ⟨_, rfl, .inr rfl⟩

/-- Parsing finds the derivation of the only tree that trying everything finds. -/
theorem parse_of_exhaust {text : String} {fuel : Nat} {t : Tree Goal}
    (h : g.rules.cfg.exhaust text.toList fuel (.goal (.rule (g.rules.start.getD ""))) 0
      text.toList.length = some [t]) (hheight : t.height ≤ g.rules.cfg.depth text.toList.length)
    (file : Option String) : g.parse text file = .ok t.derivation := by
  unfold parse derive
  rw [Cfg.read_eq_one (fun _ => RuleSet.mem_goals_of_productions) RuleSet.tokens_cfg_le h hheight]

/-- A reader that has not finished reads its text after the pieces that it was given. -/
theorem read_pieces (g : Grammar) (pieces : List String) (text : String) (ctx : ReadingContext)
    (file : Option String) : (Reader.read { grammar := g, pieces } text ctx file).1 =
      g.read (String.join pieces ++ text) ctx file := by
  have htext : Reader.text { grammar := g, pieces := pieces ++ [text] }
      = String.join pieces ++ text := by
    rw [Reader.text, String.join_append, String.join_cons, String.join_nil, String.append_empty]
  rw [Reader.read, Reader.feed]
  simp only [Bool.false_eq_true, if_false]
  rw [Reader.finish]
  simp only [Bool.false_eq_true, if_false, htext]
  cases g.read (String.join pieces ++ text) ctx file <;> rfl

/-- A fresh reader parses its text and evaluates the derivation. -/
theorem reader_read (g : Grammar) (text : String) (ctx : ReadingContext) (file : Option String) :
    (Reader.read { grammar := g } text ctx file).1 =
      (g.parse text file).bind (·.evaluate g.rules ctx) := by
  rw [read_pieces, String.join_nil, String.empty_append]
  rfl

/-- **Reading is exact.** A complete rule set that reads something in every round refuses a
text if and only if it has no derivation from the start rule, finds it ambiguous if and only
if it has two that differ, and otherwise gives its only derivation. A fresh reader evaluates
that. -/
theorem read_exact (hcheck : g.rules.check = .ok ()) (hrules : g.rules.Consuming) (text : String)
    (ctx : ReadingContext) (file : Option String) :
    ((∃ f c, g.parse text file = .error f ∧ f.cause = .reading c) ↔
      ∀ d, ¬ g.HasDerivation text d) ∧
    (g.parse text file = .error { cause := .ambiguous, file } ↔
      ∃ d d', d ≠ d' ∧ g.HasDerivation text d ∧ g.HasDerivation text d') ∧
    (∀ d, g.parse text file = .ok d ↔
      g.HasDerivation text d ∧ ∀ d', g.HasDerivation text d' → d' = d) ∧
    (Reader.read { grammar := g } text ctx file).1 =
      (g.parse text file).bind (·.evaluate g.rules ctx) := by
  have hspec := parse_spec hcheck hrules text file
  rw [← and_assoc, ← and_assoc]
  refine ⟨?_, reader_read g text ctx file⟩
  cases hparse : g.parse text file with
  | ok d =>
    rw [hparse] at hspec
    have hd := (hspec d).mpr rfl
    refine ⟨⟨⟨by simp, fun hnone => absurd hd (hnone d)⟩, by simp, ?_⟩, fun e => ⟨?_, ?_⟩⟩
    · rintro ⟨e, e', hne, he, he'⟩
      exact absurd (((hspec e).mp he).trans ((hspec e').mp he').symm) hne
    · rintro ⟨⟩
      exact ⟨hd, fun d' => (hspec d').mp⟩
    · rintro ⟨he, _⟩
      rw [(hspec e).mp he]
  | error f =>
    rw [hparse] at hspec
    rcases hspec with ⟨rfl, d, d', hne, hd, hd'⟩ | ⟨⟨c, hc⟩, hnone⟩
    · refine ⟨⟨⟨?_, fun hnone => absurd hd (hnone d)⟩, fun _ => ⟨d, d', hne, hd, hd'⟩, fun _ => rfl⟩,
        fun e => ⟨by simp, ?_⟩⟩
      · rintro ⟨_, c, ⟨⟩, hc⟩
        cases hc
      · rintro ⟨_, hunique⟩
        exact absurd ((hunique d hd).trans (hunique d' hd').symm) hne
    · refine ⟨⟨⟨fun _ => hnone, fun _ => ⟨f, c, rfl, hc⟩⟩, ?_, ?_⟩, fun e => ⟨by simp, ?_⟩⟩
      · rintro ⟨⟩
        cases hc
      · rintro ⟨d, _, _, hd, _⟩
        exact absurd hd (hnone d)
      · rintro ⟨he, _⟩
        exact absurd he (hnone e)

/-- Strokes, of which the first may stand apart. -/
def tally : RuleSet :=
  { start := some "tally"
    rules :=
      [{ name := "tally"
         alternatives := [[.rule "stroke" .optional, .rule "stroke" .many]] },
       { name := "stroke", alternatives := [[.literal "I"]] }] }

theorem tally_occurs {x : Symbol} (hx : tally.Occurs x) : x = .rule "stroke" .optional ∨
    x = .rule "stroke" .many ∨ x = .literal "I" := by
  obtain ⟨r, hr, a, ha, hx⟩ := hx
  simp only [tally, List.mem_cons, List.not_mem_nil, or_false] at hr
  rcases hr with rfl | rfl
  · obtain rfl := List.mem_singleton.mp ha
    simp only [List.mem_cons, List.not_mem_nil, or_false] at hx
    exact hx.imp_right .inl
  · obtain rfl := List.mem_singleton.mp ha
    exact .inr (.inr (List.mem_singleton.mp hx))

theorem tally_consuming : tally.Consuming where
  tokens := by
    intro x hx hkind
    rcases tally_occurs hx with rfl | rfl | rfl
    · exact absurd rfl hkind
    · exact absurd rfl hkind
    · rw [Symbol.accepts_literal_iff]
      decide
  repeated := by
    intro x hx hmany d hd
    rcases tally_occurs hx with rfl | rfl | rfl
    · cases hmany
    · obtain ⟨r, q, a, ds, hfind, hq, hds, rfl⟩ := derives_rule_iff.mp hd
      cases hfind
      obtain rfl : a = [.literal "I"] := List.mem_singleton.mp (List.mem_of_getElem? hq)
      obtain ⟨e, rfl, he⟩ := derivesAll_singleton_iff.mp hds
      have haccepts := ((derives_token_iff (by decide) rfl).mp he).1
      rw [Symbol.accepts_literal_iff] at haccepts
      cases haccepts
    · cases hmany
  rules := by
    -- a stroke mentions no rule, so no way that starts with a tally comes back
    have hleads : ∀ {a b}, tally.Leads a b → a = "tally" ∧ b = "stroke" := by
      rintro a b ⟨r, hfind, before, x, after, ha, hkind, rfl, _⟩
      have hr := List.mem_of_find?_eq_some hfind
      have hname : r.name = a := by simpa using List.find?_some hfind
      simp only [tally, List.mem_cons, List.not_mem_nil, or_false] at hr
      rcases hr with rfl | rfl
      · have hx : x ∈ before ++ x :: after := by simp
        rw [List.mem_singleton.mp ha] at hx
        simp only [List.mem_cons, List.not_mem_nil, or_false] at hx
        rcases hx with rfl | rfl
        · exact ⟨hname.symm, rfl⟩
        · exact ⟨hname.symm, rfl⟩
      · have hx : x ∈ before ++ x :: after := by simp
        rw [List.mem_singleton.mp ha] at hx
        obtain rfl := List.mem_singleton.mp hx
        cases hkind
    intro name h
    obtain ⟨b, hfirst, _⟩ := Relation.TransGen.head'_iff.mp h
    obtain ⟨c, _, hlast⟩ := Relation.TransGen.tail'_iff.mp h
    exact absurd ((hleads hfirst).1.symm.trans (hleads hlast).2) (by decide)

/-- A single stroke is the one that stands apart, or the first of the others. -/
theorem read_exact_tally : tally.check = .ok () ∧ tally.Consuming ∧
    Grammar.parse { rules := tally } "I" = .error { cause := .ambiguous } := by
  have hcheck : tally.check = .ok () := by rfl
  refine ⟨hcheck, tally_consuming, ?_⟩
  have hstroke : Derives tally (.rule "stroke") "I".toList (.node "stroke" 0 [.token "I"]) :=
    derives_rule_iff.mpr ⟨_, 0, [.literal "I"], [.token "I"], rfl, rfl,
      derivesAll_singleton_iff.mpr
        ⟨_, rfl, .token (by decide) rfl (Symbol.accepts_literal_iff.mpr rfl)⟩, rfl⟩
  have happart : Derives tally (.rule "stroke" .optional) "I".toList
      (.node "stroke" 0 [.token "I"]) := .present rfl hstroke
  have hfirst : Derives tally (.rule "stroke" .many) "I".toList
      (.many [.node "stroke" 0 [.token "I"]]) :=
    derives_many_iff rfl |>.mpr ⟨1, _, derivesAll_singleton_iff.mpr ⟨_, rfl, hstroke⟩, rfl⟩
  have hnone : Derives tally (.rule "stroke" .many) [] (.many []) :=
    derives_many_iff rfl |>.mpr ⟨0, [], .nil, rfl⟩
  have hrule : ∀ ds, DerivesAll tally [.rule "stroke" .optional, .rule "stroke" .many]
      "I".toList ds → HasDerivation { rules := tally } "I" (.node "tally" 0 ds) := fun ds hds =>
    ⟨"tally", rfl, derives_rule_iff.mpr ⟨_, 0, _, ds, rfl, rfl, hds, rfl⟩⟩
  refine (read_exact (g := { rules := tally }) hcheck tally_consuming "I" {} none).2.1.mpr ?_
  refine ⟨_, _, ?_, hrule _ (.cons happart (.cons hnone .nil)),
    hrule _ (.cons (.absent rfl) (.cons hfirst .nil))⟩
  simp

end Grammar

end Covenant
