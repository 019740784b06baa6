import Covenant.Grammar.Engine
import Covenant.Proofs.Grammar.Exact
import Covenant.Proofs.Listing.Literals
import Covenant.Proofs.Listing.Trees

/-!
Reading by a parser of the listing.

* `Forest.Explicit.several`: a forest in which a place is ambiguous holds different trees.
* `between_iff`: terminals take what literals and patterns take, if the patterns are kept between
  slashes.
* `Engine.reads_derivations`: with a parser that delivers the trees of the listing, a text without a
  derivation is refused, one with several is ambiguous, and one with a single derivation has its
  value.
* `Engine.read_eq`: it is read as by the chart of its rule set.
-/

namespace Covenant

open Listing

/-! ### Forests -/

namespace Forest

mutual

/-- **The trees in a forest**: at every ambiguous place, one of the readings. -/
inductive Shows : Forest → Labelled → Prop where
  | token {text : String} : Shows (.token text) (.token text)
  | node {name : String} {fs : List Forest} {ts : List Labelled} (h : AllShow fs ts) :
      Shows (.node name fs) (.node name ts)
  | ambiguous {fs : List Forest} {f : Forest} {t : Labelled} (hf : f ∈ fs) (h : Shows f t) :
      Shows (.ambiguous fs) t

/-- Sequences of trees in forests, one each. -/
inductive AllShow : List Forest → List Labelled → Prop where
  | nil : AllShow [] []
  | cons {f : Forest} {fs : List Forest} {t : Labelled} {ts : List Labelled} (h : Shows f t)
      (hrest : AllShow fs ts) : AllShow (f :: fs) (t :: ts)

end

/-- **Ambiguity is explicit**: a place is marked as ambiguous only if it has readings that
differ. -/
inductive Explicit : Forest → Prop where
  | token {text : String} : Explicit (.token text)
  | node {name : String} {fs : List Forest} (h : ∀ f ∈ fs, Explicit f) : Explicit (.node name fs)
  | ambiguous {fs : List Forest} {t t' : Labelled} (hne : t ≠ t') (ht : Shows (.ambiguous fs) t)
      (ht' : Shows (.ambiguous fs) t') : Explicit (.ambiguous fs)

mutual

/-- **A forest without ambiguous places** shows one tree. -/
theorem shows_iff : ∀ {f : Forest} {t : Labelled}, f.tree? = some t → ∀ u, f.Shows u ↔ u = t
  | .token text, t, h, u => by
    cases h
    constructor
    · rintro ⟨⟩
      rfl
    · rintro rfl
      exact .token
  | .node name fs, t, h, u => by
    rw [tree?] at h
    obtain ⟨ts, hts, rfl⟩ := Option.map_eq_some_iff.mp h
    constructor
    · intro hu
      cases hu with
      | node hus => rw [(allShow_iff hts _).mp hus]
    · rintro rfl
      exact .node ((allShow_iff hts ts).mpr rfl)
  | .ambiguous fs, t, h, u => by
    cases h

theorem allShow_iff : ∀ {fs : List Forest} {ts : List Labelled}, trees? fs = some ts →
    ∀ us, AllShow fs us ↔ us = ts
  | [], ts, h, us => by
    cases h
    constructor
    · rintro ⟨⟩
      rfl
    · rintro rfl
      exact .nil
  | f :: fs, ts, h, us => by
    rw [trees?] at h
    obtain ⟨t, ht, h⟩ := Option.bind_eq_some_iff.mp h
    obtain ⟨rest, hrest, h⟩ := Option.bind_eq_some_iff.mp h
    cases h
    constructor
    · intro hus
      cases hus with
      | cons hu hus => rw [(shows_iff ht _).mp hu, (allShow_iff hrest _).mp hus]
    · rintro rfl
      exact .cons ((shows_iff ht t).mpr rfl) ((allShow_iff hrest rest).mpr rfl)

end

theorem exists_allShow {fs : List Forest} (h : ∀ f ∈ fs, ∃ t, f.Shows t) : ∃ ts, AllShow fs ts := by
  induction fs with
  | nil => exact ⟨[], .nil⟩
  | cons f fs ih =>
    obtain ⟨⟨t, ht⟩, hfs⟩ := List.forall_mem_cons.mp h
    obtain ⟨ts, hts⟩ := ih hfs
    exact ⟨t :: ts, .cons ht hts⟩

theorem Explicit.exists_shows {f : Forest} (h : f.Explicit) : ∃ t, f.Shows t := by
  induction h with
  | token => exact ⟨_, .token⟩
  | node _ ih =>
    obtain ⟨ts, hts⟩ := exists_allShow ih
    exact ⟨_, .node hts⟩
  | ambiguous _ ht _ => exact ⟨_, ht⟩

/-- Forests beside each other show different sequences as soon as one of them shows different
trees. -/
theorem allShow_several {fs : List Forest} (hshow : ∀ f ∈ fs, ∃ t, f.Shows t)
    (hseveral : ∀ f ∈ fs, f.tree? = none → ∃ t t', t ≠ t' ∧ f.Shows t ∧ f.Shows t')
    (h : trees? fs = none) : ∃ ts ts', ts ≠ ts' ∧ AllShow fs ts ∧ AllShow fs ts' := by
  induction fs with
  | nil => cases h
  | cons f fs ih =>
    obtain ⟨⟨t, ht⟩, hshow⟩ := List.forall_mem_cons.mp hshow
    obtain ⟨hf, hseveral⟩ := List.forall_mem_cons.mp hseveral
    cases hfirst : f.tree? with
    | none =>
      obtain ⟨u, u', hne, hu, hu'⟩ := hf hfirst
      obtain ⟨ts, hts⟩ := exists_allShow hshow
      exact ⟨u :: ts, u' :: ts, fun heq => hne (List.cons.inj heq).1, .cons hu hts, .cons hu' hts⟩
    | some v =>
      have hrest : trees? fs = none := by
        rw [trees?, hfirst] at h
        cases hrest : trees? fs with
        | none => rfl
        | some ts => simp [hrest] at h
      obtain ⟨ts, ts', hne, hts, hts'⟩ := ih hshow hseveral hrest
      exact ⟨t :: ts, t :: ts', fun heq => hne (List.cons.inj heq).2, .cons ht hts, .cons ht hts'⟩

/-- **A forest with an ambiguous place** shows different trees. -/
theorem Explicit.several {f : Forest} (h : f.Explicit) (hnone : f.tree? = none) :
    ∃ t t', t ≠ t' ∧ f.Shows t ∧ f.Shows t' := by
  induction h with
  | token => cases hnone
  | node h ih =>
    rw [tree?, Option.map_eq_none_iff] at hnone
    obtain ⟨ts, ts', hne, hts, hts'⟩ := allShow_several (fun f hf => (h f hf).exists_shows) ih hnone
    exact ⟨_, _, fun heq => hne (Labelled.node.inj heq).2, .node hts, .node hts'⟩
  | ambiguous hne ht ht' => exact ⟨_, _, hne, ht, ht'⟩

mutual

theorem explicit_of_tree : ∀ {f : Forest} {t : Labelled}, f.tree? = some t → f.Explicit
  | .token text, t, h => .token
  | .node name fs, t, h => by
    rw [tree?] at h
    obtain ⟨ts, hts, -⟩ := Option.map_eq_some_iff.mp h
    exact .node (explicit_of_trees hts)
  | .ambiguous fs, t, h => by cases h

theorem explicit_of_trees : ∀ {fs : List Forest} {ts : List Labelled}, trees? fs = some ts →
    ∀ f ∈ fs, f.Explicit
  | [], ts, h => fun f hf => absurd hf List.not_mem_nil
  | f :: fs, ts, h => by
    rw [trees?] at h
    obtain ⟨t, ht, h⟩ := Option.bind_eq_some_iff.mp h
    obtain ⟨rest, hrest, -⟩ := Option.bind_eq_some_iff.mp h
    exact List.forall_mem_cons.mpr ⟨explicit_of_tree ht, explicit_of_trees hrest⟩

end

end Forest

/-! ### Answers -/

/-- **An answer delivers the trees** that `P` holds of: it is a refusal only if there are none, and
otherwise a forest of them all. -/
def Answer.Delivers (P : Labelled → Prop) : Answer → Prop
  | .refusal _ _ => ∀ t, ¬ P t
  | .forest f => f.Explicit ∧ ∀ t, f.Shows t ↔ P t

theorem Answer.Delivers.congr {P Q : Labelled → Prop} {answer : Answer} (h : answer.Delivers P)
    (hPQ : ∀ t, P t ↔ Q t) : answer.Delivers Q := by
  cases answer with
  | refusal furthest expected => exact fun t ht => h t ((hPQ t).mpr ht)
  | forest f => exact ⟨h.1, fun t => (h.2 t).trans (hPQ t)⟩

namespace Engine

variable {generate : Generator} {rules : RuleSet} {e : Engine} {text : String}

/-- **What parsing tells of the trees** that the parser delivers. -/
theorem parse_delivers {P : Labelled → Prop} (h : (e.parser text).Delivers P)
    (file : Option String) : match e.parse text file with
      | .ok t => ∀ u, P u ↔ u = t
      | .error f => (f = { cause := .ambiguous, file } ∧ ∃ t t', t ≠ t' ∧ P t ∧ P t') ∨
        ((∃ c, f.cause = .reading c) ∧ ∀ t, ¬ P t) := by
  unfold parse
  cases hanswer : e.parser text with
  | refusal furthest expected =>
    rw [hanswer] at h
    exact .inr ⟨⟨_, rfl⟩, h⟩
  | forest f =>
    rw [hanswer] at h
    obtain ⟨hexplicit, hshows⟩ := h
    cases htree : f.tree? with
    | some t =>
      simp only [htree]
      intro u
      rw [← hshows, Forest.shows_iff htree]
    | none =>
      simp only [htree]
      obtain ⟨t, t', hne, ht, ht'⟩ := hexplicit.several htree
      exact .inl ⟨trivial, t, t', hne, (hshows t).mp ht, (hshows t').mp ht'⟩

/-- **What an engine is made of**: the tables of a complete set, and the parser of its listing. -/
theorem compile_eq_ok (h : compile generate rules = .ok e) : e.rules = rules ∧
    rules.check = .ok () ∧ Listing.tables rules = .ok e.tables ∧
      generate (Listing.text rules) (mangle (rules.start.getD "")) = some e.parser := by
  obtain ⟨t, ht, h⟩ := Outcome.bind_eq_ok.mp h
  have hcheck : rules.check = .ok () := by
    obtain ⟨u, hu, -⟩ := Outcome.bind_eq_ok.mp ht
    exact hu
  split at h
  · rename_i parser hparser
    cases h
    exact ⟨rfl, hcheck, ht, hparser⟩
  · cases h

end Engine

/-! ### What literals and patterns take -/

/-- **Characters are read as themselves** by regular expressions, if they have no meaning there or
stand after a backslash. -/
def ReadsCharacters (M : Matching) : Prop :=
  ∀ ts cs i k, i ≤ k → k ≤ cs.length → (M (ts.flatMap spellOut) cs i k ↔ stretch cs i k = ts)

/-- **A pattern is kept between slashes**: what becomes of it there takes what it takes itself. -/
def Kept (M : Matching) (regex : String) : Prop :=
  ∃ r, Slashed.respell? regex.toList = some r ∧ ∀ cs i k, M r cs i k ↔ M regex.toList cs i k

theorem kept_of_respell {M : Matching} {regex : String}
    (h : Slashed.respell? regex.toList = some regex.toList) : Kept M regex :=
  ⟨_, h, fun _ _ _ => Iff.rfl⟩

/-- **What a literal or pattern takes** of a text between two positions: a literal its own text, a
pattern what its regular expression does. -/
def Symbol.TakesAt (M : Matching) (cs : List Char) (x : Symbol) (i k : Nat) : Prop :=
  i ≤ k ∧ k ≤ cs.length ∧
    if x.kind = .literal then stretch cs i k = x.value.toList else M x.value.toList cs i k

/-- **A terminal takes what its literal or pattern takes**, unless the pattern is not kept. -/
theorem between_iff {M : Matching} (hM : ReadsCharacters M) {x : Symbol} (hkind : x.kind ≠ .rule)
    (hkept : x.kind = .pattern → Kept M x.value) {cs : List Char} {i k : Nat} :
    Between M cs x i k ↔ x.TakesAt M cs i k := by
  refine and_congr_right fun hik => and_congr_right fun hk => ?_
  cases hx : x.kind with
  | rule => exact absurd hx hkind
  | literal =>
    rw [terminalRegex, hx, if_pos rfl]
    simp only [inner_literalRegex, Option.some.injEq, exists_eq_left']
    exact hM _ _ _ _ hik hk
  | pattern =>
    obtain ⟨r, hr, htakes⟩ := hkept hx
    rw [terminalRegex, hx, if_neg (by simp)]
    simp only [inner_patternRegex, hr, Option.some.injEq, exists_eq_left']
    exact htakes _ _ _

/-! ### Regular expressions as patterns -/

/-- **What a regular expression takes** when it is read as a pattern: what it matches from one
position to the other, and no more. -/
def Pattern.matching : Matching := fun regex cs i k =>
  ∃ p, Pattern.ofChars? regex = some p ∧
    p.match? (stretch cs i k) = some (stretch cs i k).length

theorem readsCharacters_matching : ReadsCharacters Pattern.matching := by
  intro ts cs i k _ _
  have hread : Pattern.ofChars? (ts.flatMap spellOut) = some (.literal ts) := by
    rw [Pattern.ofChars_spelled spelling_spellOut, Pattern.spelled_empty]
  simp only [Pattern.matching, hread, Option.some.injEq, exists_eq_left', Pattern.match_literal_iff]

/-- What a literal or pattern accepts of a text between two positions. -/
def Symbol.AcceptsAt (cs : List Char) (x : Symbol) (i k : Nat) : Prop :=
  i ≤ k ∧ k ≤ cs.length ∧ x.Accepts (stretch cs i k)

/-- **A terminal takes what its symbol accepts**, if it can stand between slashes. -/
theorem between_matching_iff {x : Symbol} (hkind : x.kind ≠ .rule)
    (hslashed : x.kind = .pattern → (Slashed.respell? x.value.toList).isSome) {cs : List Char}
    {i k : Nat} : Between Pattern.matching cs x i k ↔ x.AcceptsAt cs i k := by
  refine and_congr_right fun hik => and_congr_right fun hk => ?_
  cases hx : x.kind with
  | rule => exact absurd hx hkind
  | literal =>
    rw [terminalRegex, hx, Symbol.Accepts, Symbol.toPattern, hx, Pattern.match_literal_iff]
    simp only [inner_literalRegex, Option.some.injEq, exists_eq_left']
    exact readsCharacters_matching _ _ _ _ hik hk
  | pattern =>
    obtain ⟨r, hr⟩ := Option.isSome_iff_exists.mp (hslashed hx)
    have hregex : x.regex = r := by rw [Symbol.regex, hr, Option.getD_some]
    rw [terminalRegex, hx, Symbol.Accepts, Symbol.toPattern, hx]
    simp only [inner_patternRegex, hr, hregex, Option.some.injEq, exists_eq_left', Pattern.matching]
    cases Pattern.ofChars? r with
    | some p => simp
    | none =>
      -- the pattern that stands for no regular expression takes nothing
      rw [Option.getD_none, Pattern.match?]
      cases stretch cs i k <;> simp [Pattern.run]

section

variable {s : RuleSet} {cs : List Char}

mutual

/-- **A derivation between two positions** derives what stands between them. -/
theorem derives_of_derivesAt {x : Symbol} {i k : Nat} {d : Derivation} :
    DerivesAt s (Symbol.AcceptsAt cs) cs x i k d → i ≤ k ∧ Derives s x (stretch cs i k) d
  | .token hkind hone h => ⟨h.1, .token hkind hone h.2.2⟩
  | .rule hkind hone hfind hq h => by
    obtain ⟨hik, hds⟩ := derivesAll_of_allDeriveAt h
    exact ⟨hik, .rule hkind hone hfind hq hds⟩
  | .absent hoptional => by
    rw [stretch_self]
    exact ⟨Nat.le_refl _, .absent hoptional⟩
  | .present hoptional h => by
    obtain ⟨hik, hd⟩ := derives_of_derivesAt h
    exact ⟨hik, .present hoptional hd⟩
  | .many hmany h => by
    obtain ⟨hik, hds⟩ := derivesAll_of_allDeriveAt h
    exact ⟨hik, .many hmany hds⟩

theorem derivesAll_of_allDeriveAt {xs : List Symbol} {i k : Nat} {ds : List Derivation} :
    AllDeriveAt s (Symbol.AcceptsAt cs) cs xs i k ds →
      i ≤ k ∧ DerivesAll s xs (stretch cs i k) ds
  | .nil => by
    rw [stretch_self]
    exact ⟨Nat.le_refl _, .nil⟩
  | .cons h hrest => by
    obtain ⟨hij, hd⟩ := derives_of_derivesAt h
    obtain ⟨hjk, hds⟩ := derivesAll_of_allDeriveAt hrest
    rw [← stretch_append cs hij hjk]
    exact ⟨Nat.le_trans hij hjk, .cons hd hds⟩

end

mutual

/-- **A derivation of a piece of a text** is one between the positions where the piece stands. -/
theorem derivesAt_of_derives {x : Symbol} {u before after : List Char} {d : Derivation}
    (hcs : cs = before ++ u ++ after) : Derives s x u d →
      DerivesAt s (Symbol.AcceptsAt cs) cs x before.length (before.length + u.length) d
  | .token hkind hone h => by
    have hstretch : stretch cs before.length (before.length + u.length) = u := by
      rw [stretch, hcs, List.append_assoc, List.drop_left, Nat.add_sub_cancel_left, List.take_left]
    have haccepts : x.AcceptsAt cs before.length (before.length + u.length) := by
      refine ⟨by omega, by simp [hcs], ?_⟩
      rwa [hstretch]
    have htoken : DerivesAt s (Symbol.AcceptsAt cs) cs x _ _ _ := .token hkind hone haccepts
    rwa [hstretch] at htoken
  | .rule hkind hone hfind hq h => .rule hkind hone hfind hq (allDeriveAt_of_derivesAll hcs h)
  | .absent hoptional => .absent hoptional
  | .present hoptional h => .present hoptional (derivesAt_of_derives hcs h)
  | .many hmany h => .many hmany (allDeriveAt_of_derivesAll hcs h)

theorem allDeriveAt_of_derivesAll {xs : List Symbol} {u before after : List Char}
    {ds : List Derivation} (hcs : cs = before ++ u ++ after) : DerivesAll s xs u ds →
      AllDeriveAt s (Symbol.AcceptsAt cs) cs xs before.length (before.length + u.length) ds
  | .nil => .nil
  | @DerivesAll.cons _ _ _ v w _ _ h hrest => by
    have hfirst : cs = before ++ v ++ (w ++ after) := by rw [hcs]; simp
    have hsecond : cs = (before ++ v) ++ w ++ after := by rw [hcs]; simp
    have htail := allDeriveAt_of_derivesAll hsecond hrest
    rw [List.length_append, Nat.add_assoc] at htail
    rw [List.length_append]
    exact .cons (derivesAt_of_derives hfirst h) htail

end

/-- **Between the ends of a text** the text is derived. -/
theorem derivesAt_text_iff {x : Symbol} {d : Derivation} :
    DerivesAt s (Symbol.AcceptsAt cs) cs x 0 cs.length d ↔ Derives s x cs d := by
  constructor
  · intro h
    have hd := (derives_of_derivesAt h).2
    rwa [stretch_all] at hd
  · intro h
    have hcs : cs = [] ++ cs ++ [] := by simp
    have hd := derivesAt_of_derives hcs h
    rwa [List.length_nil, Nat.zero_add] at hd

end

/-! ### Derivations of a whole text -/

namespace RuleSet

variable {s : RuleSet} {M : Matching} {text : String}

/-- **The trees of a rule over a whole text** are its derivations, by any account of the literals
and patterns that agrees with their terminals. -/
theorem isTree_rule_iff (hnames : s.names.Nodup) (P : String → Prop)
    (hP : ∀ x, s.Occurs x → x.kind = .pattern → P x.value) {cs : List Char}
    {A : Symbol → Nat → Nat → Prop} (hA : ∀ x, x.kind ≠ .rule →
      (x.kind = .pattern → P x.value) → ∀ i k, Between M cs x i k ↔ A x i k)
    {name : String} {t : Labelled} :
    (translate s).IsTree M cs (mangle name) 0 cs.length t ↔
      ∃ d, DerivesAt s A cs (.rule name) 0 cs.length d ∧
        d.labelled s (namesOf s) (.rule name) = t := by
  have hbetween : ∀ x, x.kind ≠ .rule → x.single ∈ (namesOf s).terminals → ∀ i k,
      Between M cs x i k ↔ A x i k := by
    intro x hkind hx
    refine hA x hkind fun hpattern => ?_
    obtain ⟨y, hy, -, heq⟩ := mem_terminals_namesOf_iff.mp hx
    obtain ⟨hkinds, hvalues, -⟩ := Symbol.mk.inj heq
    rw [hvalues]
    exact hP y hy (hkinds.symm.trans hpattern)
  refine (isTree_iff hnames (noted_rule name)).trans
    (exists_congr fun d => and_congr_left fun _ => ⟨?_, ?_⟩)
  · exact DerivesAt.imp (fun x hkind hx i k => (hbetween x hkind hx i k).mp) (noted_rule name)
  · exact DerivesAt.imp (fun x hkind hx i k => (hbetween x hkind hx i k).mpr) (noted_rule name)

/-- **A derivation of a text** from the start rule, where `M` says what regular expressions take. -/
def HasDerivation (s : RuleSet) (M : Matching) (text : String) (d : Derivation) : Prop :=
  ∃ start, s.start = some start ∧
    DerivesAt s (Symbol.TakesAt M text.toList) text.toList (.rule start) 0 text.toList.length d

theorem hasDerivation_iff (hcheck : s.check = .ok ()) {d : Derivation} :
    s.HasDerivation M text d ↔ DerivesAt s (Symbol.TakesAt M text.toList) text.toList
      (.rule (s.start.getD "")) 0 text.toList.length d := by
  obtain ⟨start, hstart⟩ := exists_start hcheck
  simp [HasDerivation, hstart]

/-- **The trees of the start rule over a whole text** are its derivations, if no pattern changes
between slashes. -/
theorem isTree_start_iff (hnames : s.names.Nodup) (hcheck : s.check = .ok ())
    (hM : ReadsCharacters M) (hkept : ∀ x, s.Occurs x → x.kind = .pattern → Kept M x.value)
    {t : Labelled} :
    (translate s).IsTree M text.toList (mangle (s.start.getD "")) 0 text.toList.length t ↔
      ∃ d, s.HasDerivation M text d ∧ d.labelled s (namesOf s) (.rule (s.start.getD "")) = t := by
  simp only [hasDerivation_iff hcheck]
  exact isTree_rule_iff hnames (Kept M) hkept fun x hkind hx i k => between_iff hM hkind hx

end RuleSet

/-! ### Engines -/

namespace Engine

variable {generate : Generator} {rules : RuleSet} {e : Engine} {M : Matching} {text : String}

/-- **What parsing tells of derivations**, if the parser delivers the trees of all those that `D`
holds of. -/
theorem parse_derivations {D : Derivation → Prop} {x : Symbol} (hD : ∀ d, D d → Fits rules x d)
    (h : (e.parser text).Delivers fun t => ∃ d, D d ∧ d.labelled rules (namesOf rules) x = t)
    (file : Option String) : match e.parse text file with
      | .ok t => ∃ d, D d ∧ (∀ d', D d' → d' = d) ∧ d.labelled rules (namesOf rules) x = t
      | .error f => (f = { cause := .ambiguous, file } ∧ ∃ d d', d ≠ d' ∧ D d ∧ D d') ∨
        ((∃ c, f.cause = .reading c) ∧ ∀ d, ¬ D d) := by
  have hspec := parse_delivers h file
  cases hparse : e.parse text file with
  | ok t =>
    rw [hparse] at hspec
    obtain ⟨d, hd, hlabelled⟩ := (hspec t).mpr rfl
    refine ⟨d, hd, fun d' hd' => ?_, hlabelled⟩
    exact labelled_injective (hD d' hd') (hD d hd)
      (((hspec _).mp ⟨d', hd', rfl⟩).trans hlabelled.symm)
  | error f =>
    rw [hparse] at hspec
    rcases hspec with ⟨hf, t, t', hne, ⟨d, hd, rfl⟩, ⟨d', hd', rfl⟩⟩ | ⟨hc, hnone⟩
    · exact .inl ⟨hf, d, d', fun heq => hne (by rw [heq]), hd, hd'⟩
    · exact .inr ⟨hc, fun d hd => hnone _ ⟨d, hd, rfl⟩⟩

theorem read_of_parse {t : Labelled} {file : Option String} (h : e.parse text file = .ok t)
    (ctx : ReadingContext) : e.read text ctx file = t.evaluate e.tables ctx := by
  rw [read, h]
  rfl

theorem read_of_parse_error {f : Fault} {file : Option String}
    (h : e.parse text file = .error f) (ctx : ReadingContext) : e.read text ctx file = .error f := by
  rw [read, h]
  rfl

/-- Trees that stand for a derivation have its value. -/
theorem evaluate_tree (hnames : rules.names.Nodup) (hcompile : compile generate rules = .ok e)
    {x : Symbol} (hone : x.cardinality = .one) {d : Derivation} (hd : Fits rules x d)
    (ctx : ReadingContext) :
    (d.labelled rules (namesOf rules) x).evaluate e.tables ctx = d.evaluate rules ctx := by
  obtain ⟨-, hcheck, htables, -⟩ := compile_eq_ok hcompile
  obtain ⟨t, ht, htells⟩ := exists_tables hnames hcheck
  obtain rfl : t = e.tables := Except.ok.inj (ht.symm.trans htables)
  exact evaluate_labelled hcheck htells (absurd hone) hd

/-! ### Trees of a usable set -/

/-- A grammar is a complete set that is usable. -/
theorem rules_of_ofRules {source : Option String} {g : Grammar}
    (h : Grammar.ofRules rules source = .ok g) :
    g.rules = rules ∧ rules.check = .ok () ∧ rules.usable = true := by
  obtain ⟨u, hcheck, h⟩ := Outcome.bind_eq_ok.mp h
  split at h
  · rename_i husable
    cases h
    exact ⟨rfl, hcheck, husable⟩
  · cases h

/-- Every pattern of a usable set can stand between slashes. -/
theorem respell_of_usable (husable : rules.usable = true) {x : Symbol} (hx : rules.Occurs x)
    (hpattern : x.kind = .pattern) : (Slashed.respell? x.value.toList).isSome := by
  obtain ⟨r, hr, alternative, halternative, hx⟩ := hx
  have hrule := List.all_eq_true.mp husable r hr
  simp only [Bool.and_eq_true] at hrule
  refine List.all_eq_true.mp hrule.1.1.2 x (List.mem_filter.mpr ⟨?_, by simp [hpattern]⟩)
  exact List.mem_flatten.mpr ⟨alternative, halternative, hx⟩

/-- **Trees of a rule** are the derivations of its text, if regular expressions are read as
patterns. -/
theorem isTree_matching_iff (hnames : rules.names.Nodup) (husable : rules.usable = true)
    {name : String} {cs : List Char} {t : Labelled} :
    (translate rules).IsTree Pattern.matching cs (mangle name) 0 cs.length t ↔
      ∃ d, Derives rules (.rule name) cs d ∧ d.labelled rules (namesOf rules) (.rule name) = t := by
  simp only [← derivesAt_text_iff]
  exact RuleSet.isTree_rule_iff hnames (fun regex => (Slashed.respell? regex.toList).isSome)
    (fun x hx hpattern => respell_of_usable husable hx hpattern)
    fun x hkind hx i k => between_matching_iff hkind hx

/-- If no pattern changes between slashes, the derivations of a text are what the start rule
derives. -/
theorem hasDerivation_matching_iff (hnames : rules.names.Nodup) (hcheck : rules.check = .ok ())
    (husable : rules.usable = true)
    (hkept : ∀ x, rules.Occurs x → x.kind = .pattern → Kept Pattern.matching x.value)
    {d : Derivation} : rules.HasDerivation Pattern.matching text d ↔
      Derives rules (.rule (rules.start.getD "")) text.toList d := by
  have htrees := fun t => (@RuleSet.isTree_start_iff rules Pattern.matching text hnames hcheck
    readsCharacters_matching hkept t).symm.trans (isTree_matching_iff hnames husable)
  have hfits : ∀ {d}, rules.HasDerivation Pattern.matching text d → Fits rules _ d :=
    fun hd => ((RuleSet.hasDerivation_iff hcheck).mp hd).fits
  constructor
  · intro hd
    obtain ⟨d', hd', heq⟩ := (htrees _).mp ⟨d, hd, rfl⟩
    rwa [← labelled_injective hd'.fits (hfits hd) heq]
  · intro hd
    obtain ⟨d', hd', heq⟩ := (htrees _).mpr ⟨d, hd, rfl⟩
    rwa [← labelled_injective (hfits hd') hd.fits heq]

/-- **Reading by a parser of the listing is exact.** Regular expressions are taken to read
characters as themselves, and no pattern to change between slashes. If the parser that was made from
the listing of a complete set delivers the trees that the listing has of a text, then the text is
refused if and only if it has no derivation from the start rule and is ambiguous if and only if it
has two that differ; it is not read then; and if it has a single one, reading it is the evaluation
of that. -/
theorem reads_derivations (hnames : rules.names.Nodup) (hcompile : compile generate rules = .ok e)
    (hM : ReadsCharacters M) (hkept : ∀ x, rules.Occurs x → x.kind = .pattern → Kept M x.value)
    (hparser : (e.parser text).Delivers ((translate rules).IsTree M text.toList
      (mangle (rules.start.getD "")) 0 text.toList.length))
    (ctx : ReadingContext) (file : Option String) :
    ((∃ f c, e.parse text file = .error f ∧ f.cause = .reading c) ↔
      ∀ d, ¬ rules.HasDerivation M text d) ∧
    (e.parse text file = .error { cause := .ambiguous, file } ↔
      ∃ d d', d ≠ d' ∧ rules.HasDerivation M text d ∧ rules.HasDerivation M text d') ∧
    (∀ f, e.parse text file = .error f → e.read text ctx file = .error f) ∧
    ∀ d, rules.HasDerivation M text d → (∀ d', rules.HasDerivation M text d' → d' = d) →
      e.read text ctx file = d.evaluate rules ctx := by
  have hcheck := (compile_eq_ok hcompile).2.1
  have hfits : ∀ d, rules.HasDerivation M text d → Fits rules (.rule (rules.start.getD "")) d :=
    fun d hd => ((RuleSet.hasDerivation_iff hcheck).mp hd).fits
  have hdelivers : (e.parser text).Delivers fun t => ∃ d, rules.HasDerivation M text d ∧
      d.labelled rules (namesOf rules) (.rule (rules.start.getD "")) = t :=
    hparser.congr fun t => RuleSet.isTree_start_iff hnames hcheck hM hkept
  have hspec := parse_derivations hfits hdelivers file
  cases hparse : e.parse text file with
  | ok u =>
    rw [hparse] at hspec
    obtain ⟨d, hd, honly, rfl⟩ := hspec
    refine ⟨⟨by simp, fun hnone => absurd hd (hnone d)⟩, ⟨by simp, ?_⟩, by simp, fun d' hd' _ => ?_⟩
    · rintro ⟨d₁, d₂, hne, h₁, h₂⟩
      exact absurd ((honly d₁ h₁).trans (honly d₂ h₂).symm) hne
    · rw [honly d' hd', read_of_parse hparse]
      exact evaluate_tree hnames hcompile rfl (hfits d hd) ctx
  | error f =>
    have hread := read_of_parse_error hparse ctx
    rw [hparse] at hspec
    rcases hspec with ⟨rfl, d, d', hne, hd, hd'⟩ | ⟨⟨c, hc⟩, hnone⟩
    · refine ⟨⟨?_, fun hnone => absurd hd (hnone d)⟩, ⟨fun _ => ⟨d, d', hne, hd, hd'⟩, fun _ => rfl⟩,
        ?_, fun d₁ _ honly => absurd ((honly d hd).trans (honly d' hd').symm) hne⟩
      · rintro ⟨_, c, ⟨⟩, hc⟩
        cases hc
      · rintro _ ⟨⟩
        exact hread
    · refine ⟨⟨fun _ => hnone, fun _ => ⟨f, c, rfl, hc⟩⟩, ⟨?_, ?_⟩, ?_, fun d hd => absurd hd (hnone d)⟩
      · rintro ⟨⟩
        cases hc
      · rintro ⟨d, _, _, hd, _⟩
        exact absurd hd (hnone d)
      · rintro _ ⟨⟩
        exact hread

/-- Makes a parser for one listing, which knows the reading of one text. -/
def knowing (rules : RuleSet) (text : String) (f : Forest) : Generator := fun listing start =>
  if listing = Listing.text rules ∧ start = mangle (rules.start.getD "") then
    some fun given => if given = text then .forest f else .refusal 0 []
  else none

theorem compile_knowing (hcheck : rules.check = .ok ()) (hnames : rules.names.Nodup) {f : Forest} :
    ∃ e, compile (knowing rules text f) rules = .ok e ∧ e.parser text = .forest f := by
  obtain ⟨t, ht, -⟩ := exists_tables hnames hcheck
  refine ⟨⟨rules, t, fun given => if given = text then .forest f else .refusal 0 []⟩, ?_, if_pos rfl⟩
  rw [compile, ht]
  simp [knowing, bind, Except.bind, pure, Except.pure]

/-- A forest without ambiguous places delivers the one tree that it is. -/
theorem delivers_of_tree {f : Forest} {t : Labelled} {P : Labelled → Prop}
    (hforest : e.parser text = .forest f) (htree : f.tree? = some t) (hP : ∀ u, P u ↔ u = t) :
    (e.parser text).Delivers P := by
  rw [hforest]
  exact ⟨Forest.explicit_of_tree htree, fun u => (Forest.shows_iff htree u).trans (hP u).symm⟩

def orderDerivation : Derivation :=
  .node "order" 0 [.node "count" 0 [.token "7"], .token ":",
    .many [.node "Item" 0 [.token "a"], .node "Item" 1 [.token "b"]]]

set_option maxRecDepth 4000 in
theorem evaluate_order : orderDerivation.evaluate order {} = .ok (.object [("$class", .text "Order"),
    ("count", .int 7), ("items", .list [.text "a", .text "b"])]) := rfl

/-- The reading of an order, under the names of the listing. -/
def orderForest : Forest :=
  .node "a0_r_order" [.node "h_0" [.node "a0_r_count" [.token "7"]], .token ":",
    .node "h_1" [.node "a0_r__item" [.token "a"], .node "a1_r__item" [.token "b"]]]

/-- An order has one derivation. Its count is optional, and its items are repeated. -/
theorem reads_derivations_order : order.names.Nodup ∧ ReadsCharacters Pattern.matching ∧
    (∀ x, order.Occurs x → x.kind = .pattern → Kept Pattern.matching x.value) ∧
    ∃ e, compile (knowing order "7:ab" orderForest) order = .ok e ∧
      (e.parser "7:ab").Delivers
        ((translate order).IsTree Pattern.matching "7:ab".toList (mangle "order") 0 4) ∧
      e.read "7:ab" = .ok (.object [("$class", .text "Order"), ("count", .int 7),
        ("items", .list [.text "a", .text "b"])]) := by
  have hnames : order.names.Nodup := by decide
  have hcheck : order.check = .ok () := by rfl
  have husable : order.usable = true := by decide +kernel
  have hderives : ∀ d, Derives order (.rule "order") "7:ab".toList d ↔ d = orderDerivation := by
    intro d
    rw [RuleSet.derives_iff_mem (by decide +kernel) 10 (show _ = some [orderDerivation] from rfl),
      List.mem_singleton]
  have hkept : ∀ x, order.Occurs x → x.kind = .pattern → Kept Pattern.matching x.value := by
    rintro x ⟨r, hr, xs, hxs, hx⟩ hpattern
    have hall : (order.rules.all fun r => r.alternatives.all fun xs => xs.all fun x =>
        x.kind != .pattern || Slashed.respell? x.value.toList == some x.value.toList) = true := by
      decide +kernel
    simp only [List.all_eq_true] at hall
    have hregex := hall r hr xs hxs x hx
    rw [hpattern] at hregex
    exact kept_of_respell (beq_iff_eq.mp hregex)
  obtain ⟨e, hcompile, hforest⟩ := @compile_knowing order "7:ab" hcheck hnames orderForest
  have htrees : ∀ t, (translate order).IsTree Pattern.matching "7:ab".toList (mangle "order") 0 4 t ↔
      t = orderDerivation.labelled order (namesOf order) (.rule "order") := by
    intro t
    rw [show 4 = "7:ab".toList.length from rfl, isTree_matching_iff hnames husable]
    simp only [hderives, exists_eq_left, eq_comm]
  have hdelivers : (e.parser "7:ab").Delivers
      ((translate order).IsTree Pattern.matching "7:ab".toList (mangle "order") 0 4) := by
    have htree : orderForest.tree? =
        some (orderDerivation.labelled order (namesOf order) (.rule "order")) := rfl
    exact delivers_of_tree hforest htree htrees
  refine ⟨hnames, readsCharacters_matching, hkept, e, hcompile, hdelivers, ?_⟩
  obtain ⟨-, -, -, hread⟩ := reads_derivations hnames hcompile readsCharacters_matching hkept
    hdelivers {} none
  have hderivation : ∀ d, order.HasDerivation Pattern.matching "7:ab" d ↔ d = orderDerivation :=
    fun d => (hasDerivation_matching_iff hnames hcheck husable hkept).trans (hderives d)
  rw [hread orderDerivation ((hderivation _).mpr rfl) fun d => (hderivation d).mp, evaluate_order]

/-- A rule for a dot that is written as an escape. -/
def dot : RuleSet :=
  { start := some "dot", rules := [{ name := "dot", alternatives := [[.pattern "\\x2e"]] }] }

/-- Between slashes the escape of a dot becomes the dot itself, which takes every character: a text
is read that has no derivation. -/
theorem reads_wildcard : dot.check = .ok () ∧
    (∀ d, ¬ dot.HasDerivation Pattern.matching "a" d) ∧
    ∃ e, compile (knowing dot "a" (.node "a0_r_dot" [.token "a"])) dot = .ok e ∧
      (e.parser "a").Delivers
        ((translate dot).IsTree Pattern.matching "a".toList (mangle "dot") 0 1) ∧
      e.read "a" = .ok (.text "a") := by
  have hnames : dot.names.Nodup := by decide
  have hcheck : dot.check = .ok () := by rfl
  have hderives : ∀ d, Derives dot (.rule "dot") "a".toList d ↔ d = .node "dot" 0 [.token "a"] := by
    intro d
    rw [RuleSet.derives_iff_mem (by decide +kernel) 10
      (show _ = some [.node "dot" 0 [.token "a"]] from rfl), List.mem_singleton]
  have htrees : ∀ t, (translate dot).IsTree Pattern.matching "a".toList (mangle "dot") 0 1 t ↔
      t = .node "a0_r_dot" [.token "a"] := by
    intro t
    rw [show 1 = "a".toList.length from rfl, isTree_matching_iff hnames (by decide +kernel)]
    simp only [hderives, exists_eq_left, eq_comm]
    rfl
  obtain ⟨e, hcompile, hforest⟩ :=
    @compile_knowing dot "a" hcheck hnames (.node "a0_r_dot" [.token "a"])
  have hdelivers : (e.parser "a").Delivers
      ((translate dot).IsTree Pattern.matching "a".toList (mangle "dot") 0 1) := by
    have htree : (Forest.node "a0_r_dot" [.token "a"]).tree? =
        some (.node "a0_r_dot" [.token "a"]) := rfl
    exact delivers_of_tree hforest htree htrees
  refine ⟨hcheck, ?_, e, hcompile, hdelivers, ?_⟩
  · rintro d ⟨_, ⟨⟩, hd⟩
    obtain ⟨r, q, xs, ds, hfind, hq, hds, -⟩ := derivesAt_rule_iff.mp hd
    cases hfind
    obtain rfl := List.mem_singleton.mp (List.mem_of_getElem? hq)
    obtain - | ⟨hpattern, ⟨⟩⟩ := hds
    obtain ⟨⟨-, -, p, hp, hmatch⟩, -⟩ := (derivesAt_token_iff (by decide) rfl).mp hpattern
    obtain rfl : Pattern.char '.' = p := Option.some.inj hp
    cases hmatch
  · have hparse : e.parse "a" = .ok (.node "a0_r_dot" [.token "a"]) := by
      rw [parse, hforest]
      rfl
    have hd := (hderives _).mpr rfl
    rw [read_of_parse hparse]
    exact evaluate_tree hnames hcompile rfl hd.fits {}

/-! ### Reading by the chart -/

/-- **A parser of the listing parses as the chart does**, if it delivers the trees of the derivations
of a text: both find the same one, or the text is ambiguous for both, or both refuse it. -/
theorem parse_agrees {g : Grammar} (hcheck : g.rules.check = .ok ()) (hrules : g.rules.Consuming)
    {x : Symbol} (hfits : ∀ d, g.HasDerivation text d → Fits g.rules x d)
    (hdelivers : (e.parser text).Delivers fun t => ∃ d, g.HasDerivation text d ∧
      d.labelled g.rules (namesOf g.rules) x = t) (file : Option String) :
    (∃ d, g.HasDerivation text d ∧ g.parse text file = .ok d ∧
      e.parse text file = .ok (d.labelled g.rules (namesOf g.rules) x)) ∨
    (∃ f, g.parse text file = .error f ∧ e.parse text file = .error f) ∨
    ∃ f f' c c', e.parse text file = .error f ∧ f.cause = .reading c ∧
      g.parse text file = .error f' ∧ f'.cause = .reading c' := by
  have hspec := parse_derivations hfits hdelivers file
  have hchart := Grammar.parse_spec hcheck hrules text file
  cases hparse : e.parse text file with
  | ok t =>
    rw [hparse] at hspec
    obtain ⟨d, hd, honly, rfl⟩ := hspec
    cases hg : g.parse text file with
    | ok d' =>
      rw [hg] at hchart
      obtain rfl := (hchart d).mp hd
      exact .inl ⟨d, hd, rfl, rfl⟩
    | error f =>
      rw [hg] at hchart
      rcases hchart with ⟨-, d₁, d₂, hne, h₁, h₂⟩ | ⟨-, hnone⟩
      · exact absurd ((honly d₁ h₁).trans (honly d₂ h₂).symm) hne
      · exact absurd hd (hnone d)
  | error f =>
    rw [hparse] at hspec
    cases hg : g.parse text file with
    | ok d' =>
      rw [hg] at hchart
      rcases hspec with ⟨-, d₁, d₂, hne, h₁, h₂⟩ | ⟨-, hnone⟩
      · exact absurd (((hchart d₁).mp h₁).trans ((hchart d₂).mp h₂).symm) hne
      · exact absurd ((hchart d').mpr rfl) (hnone d')
    | error f' =>
      rw [hg] at hchart
      rcases hspec with ⟨rfl, d, -, -, hd, -⟩ | ⟨⟨c, hc⟩, hnone⟩
      · rcases hchart with ⟨rfl, -⟩ | ⟨-, hnone⟩
        · exact .inr (.inl ⟨_, rfl, rfl⟩)
        · exact absurd hd (hnone d)
      · rcases hchart with ⟨-, d, -, -, hd, -⟩ | ⟨⟨c', hc'⟩, -⟩
        · exact absurd hd (hnone d)
        · exact .inr (.inr ⟨f, f', c, c', rfl, hc, rfl, hc'⟩)

/-- **A parser of the listing reads as the chart does.** If the parser that was made from the
listing of a grammar delivers the trees that the listing has of a text, where regular expressions
are read as patterns, then a text is read by it as by the grammar, or refused by both. -/
theorem read_eq {g : Grammar} {source : Option String} (hnames : rules.names.Nodup)
    (hg : Grammar.ofRules rules source = .ok g) (hrules : rules.Consuming)
    (hcompile : compile generate rules = .ok e)
    (hparser : (e.parser text).Delivers ((translate rules).IsTree Pattern.matching text.toList
      (mangle (rules.start.getD "")) 0 text.toList.length))
    (ctx : ReadingContext) (file : Option String) :
    e.read text ctx file = g.read text ctx file ∨
      ∃ f f' c c', e.read text ctx file = .error f ∧ f.cause = .reading c ∧
        g.read text ctx file = .error f' ∧ f'.cause = .reading c' := by
  obtain ⟨rfl, hcheck, husable⟩ := rules_of_ofRules hg
  have hderives : ∀ {d}, g.HasDerivation text d ↔
      Derives g.rules (.rule (g.rules.start.getD "")) text.toList d := by
    intro d
    obtain ⟨start, hstart⟩ := RuleSet.exists_start hcheck
    simp [Grammar.HasDerivation, hstart]
  have hdelivers : (e.parser text).Delivers fun t => ∃ d, g.HasDerivation text d ∧
      d.labelled g.rules (namesOf g.rules) (.rule (g.rules.start.getD "")) = t := by
    simp only [hderives]
    exact hparser.congr fun t => isTree_matching_iff hnames husable
  have hread' : ∀ {f}, g.parse text file = .error f → g.read text ctx file = .error f := by
    intro f h
    rw [Grammar.read, h]
    rfl
  rcases parse_agrees hcheck hrules (fun d hd => (hderives.mp hd).fits) hdelivers file with
    ⟨d, hd, hchart, hparse⟩ | ⟨f, hchart, hparse⟩ | ⟨f, f', c, c', hparse, hc, hchart, hc'⟩
  · left
    rw [read_of_parse hparse, evaluate_tree hnames hcompile rfl (hderives.mp hd).fits, Grammar.read,
      hchart]
    rfl
  · exact .inl ((read_of_parse_error hparse ctx).trans (hread' hchart).symm)
  · exact .inr ⟨f, f', c, c', read_of_parse_error hparse ctx, hc, hread' hchart, hc'⟩

end Engine

end Covenant
