import Covenant.Proofs.Listing.Evaluation

/-!
The trees of a listing are the derivations of its rule set.

* `Lines.IsTree`: what the lines of a listing say about a text, whatever they were made from.
* `DerivesAt`: what a rule set derives between two positions of a text, for any account of what
  its literals and patterns take.
* `isTree_iff`: a name of the listing has the trees of the derivations of its symbol.
* `labelled_injective`: different derivations have different trees.
-/

namespace Covenant

/-- **What regular expressions take** of a text between two positions. -/
abbrev Matching :=
  List Char → List Char → Nat → Nat → Prop

/-! ### What a listing says -/

namespace Listing

/-- **A terminal takes** what is taken by the regular expression that becomes of it. -/
def Takes (M : Matching) (cs : List Char) (regex : String) (i k : Nat) : Prop :=
  i ≤ k ∧ k ≤ cs.length ∧ ∃ r, inner? regex = some r ∧ M r cs i k

namespace Lines

mutual

/-- **The trees of a name** between two positions of a text. A terminal has the text that it takes,
a rule the label of one of its alternatives over trees of the symbols, and a helper rule its own
name over what it takes once or any number of times. -/
inductive IsTree (l : Lines) (M : Matching) (cs : List Char) :
    String → Nat → Nat → Labelled → Prop where
  | token {name regex : String} {i k : Nat} (h : (name, regex) ∈ l.terminals)
      (htakes : Takes M cs regex i k) : IsTree l M cs name i k (.token (String.ofList (stretch cs i k)))
  | rule {name : String} {expansions : List Expansion} {e : Expansion} {i k : Nat}
      {ts : List Labelled} (h : (name, expansions) ∈ l.rules) (he : e ∈ expansions)
      (hts : AreTrees l M cs e.symbols i k ts) : IsTree l M cs name i k (.node e.label ts)
  | absent {name base : String} {i : Nat} (h : (name, base, Cardinality.optional) ∈ l.helpers) :
      IsTree l M cs name i i (.node name [])
  | present {name base : String} {i k : Nat} {t : Labelled}
      (h : (name, base, Cardinality.optional) ∈ l.helpers) (ht : IsTree l M cs base i k t) :
      IsTree l M cs name i k (.node name [t])
  | many {name base : String} {n i k : Nat} {ts : List Labelled}
      (h : (name, base, Cardinality.many) ∈ l.helpers)
      (hts : AreTrees l M cs (List.replicate n base) i k ts) : IsTree l M cs name i k (.node name ts)

/-- The trees of names one after the other. -/
inductive AreTrees (l : Lines) (M : Matching) (cs : List Char) :
    List String → Nat → Nat → List Labelled → Prop where
  | nil {i : Nat} : AreTrees l M cs [] i i []
  | cons {name : String} {names : List String} {i j k : Nat} {t : Labelled} {ts : List Labelled}
      (ht : IsTree l M cs name i j t) (hts : AreTrees l M cs names j k ts) :
      AreTrees l M cs (name :: names) i k (t :: ts)

end

end Lines

end Listing

/-! ### What a rule set derives between positions -/

mutual

/-- **What a symbol derives between two positions** of a text, where `A` says what literals and
patterns take. -/
inductive DerivesAt (s : RuleSet) (A : Symbol → Nat → Nat → Prop) (cs : List Char) :
    Symbol → Nat → Nat → Derivation → Prop where
  | token {x : Symbol} {i k : Nat} (hkind : x.kind ≠ .rule) (hone : x.cardinality = .one)
      (h : A x i k) : DerivesAt s A cs x i k (.token (String.ofList (stretch cs i k)))
  | rule {x : Symbol} {i k : Nat} {r : Rule} {q : Nat} {alternative : List Symbol}
      {ds : List Derivation} (hkind : x.kind = .rule) (hone : x.cardinality = .one)
      (hfind : s.find? x.value = some r) (hq : r.alternatives[q]? = some alternative)
      (h : AllDeriveAt s A cs alternative i k ds) : DerivesAt s A cs x i k (.node x.value q ds)
  | absent {x : Symbol} {i : Nat} (hoptional : x.cardinality = .optional) :
      DerivesAt s A cs x i i .absent
  | present {x : Symbol} {i k : Nat} {d : Derivation} (hoptional : x.cardinality = .optional)
      (h : DerivesAt s A cs x.single i k d) : DerivesAt s A cs x i k d
  | many {x : Symbol} {n i k : Nat} {ds : List Derivation} (hmany : x.cardinality = .many)
      (h : AllDeriveAt s A cs (List.replicate n x.single) i k ds) :
      DerivesAt s A cs x i k (.many ds)

/-- What symbols derive one after the other. -/
inductive AllDeriveAt (s : RuleSet) (A : Symbol → Nat → Nat → Prop) (cs : List Char) :
    List Symbol → Nat → Nat → List Derivation → Prop where
  | nil {i : Nat} : AllDeriveAt s A cs [] i i []
  | cons {x : Symbol} {xs : List Symbol} {i j k : Nat} {d : Derivation} {ds : List Derivation}
      (h : DerivesAt s A cs x i j d) (hrest : AllDeriveAt s A cs xs j k ds) :
      AllDeriveAt s A cs (x :: xs) i k (d :: ds)

end

section

variable {s : RuleSet} {A B : Symbol → Nat → Nat → Prop} {cs : List Char}

mutual

theorem DerivesAt.fits {x : Symbol} {i k : Nat} {d : Derivation} :
    DerivesAt s A cs x i k d → Fits s x d
  | .token hkind hone _ => .token hkind hone
  | .rule hkind hone hfind hq h => .rule hkind hone hfind hq h.fits
  | .absent hoptional => .absent hoptional
  | .present hoptional h => .present hoptional h.fits
  | .many hmany h => .many hmany h.fits

theorem AllDeriveAt.fits {xs : List Symbol} {i k : Nat} {ds : List Derivation} :
    AllDeriveAt s A cs xs i k ds → AllFit s xs ds
  | .nil => .nil
  | .cons h hrest => .cons h.fits hrest.fits

end

theorem derivesAt_rule_iff {name : String} {i k : Nat} {d : Derivation} :
    DerivesAt s A cs (.rule name) i k d ↔ ∃ r q alternative ds, s.find? name = some r ∧
      r.alternatives[q]? = some alternative ∧ AllDeriveAt s A cs alternative i k ds ∧
        d = .node name q ds := by
  constructor
  · intro h
    cases h with
    | token hkind => exact absurd rfl hkind
    | rule _ _ hfind hq h => exact ⟨_, _, _, _, hfind, hq, h, rfl⟩
    | absent hoptional => cases hoptional
    | present hoptional => cases hoptional
    | many hmany => cases hmany
  · rintro ⟨r, q, alternative, ds, hfind, hq, h, rfl⟩
    exact .rule rfl rfl hfind hq h

theorem derivesAt_token_iff {x : Symbol} (hkind : x.kind ≠ .rule) (hone : x.cardinality = .one)
    {i k : Nat} {d : Derivation} : DerivesAt s A cs x i k d ↔
      A x i k ∧ d = .token (String.ofList (stretch cs i k)) := by
  constructor
  · intro h
    cases h with
    | token _ _ h => exact ⟨h, rfl⟩
    | rule h => exact absurd h hkind
    | absent hoptional => cases hoptional.symm.trans hone
    | present hoptional => cases hoptional.symm.trans hone
    | many hmany => cases hmany.symm.trans hone
  · rintro ⟨h, rfl⟩
    exact .token hkind hone h

/-- **A symbol that a listing has a name for**: its terminal and its helper rule are noted, as far
as it has them. -/
structure Noted (s : RuleSet) (x : Symbol) : Prop where
  terminal : x.kind ≠ .rule → x.single ∈ (Listing.namesOf s).terminals
  helper : x.cardinality ≠ .one → x ∈ (Listing.namesOf s).helpers

theorem noted_of_occurs {x : Symbol} (hx : s.Occurs x) : Noted s x :=
  ⟨fun hkind => Listing.mem_terminals_namesOf_iff.mpr ⟨x, hx, hkind, rfl⟩,
    fun hone => Listing.mem_helpers_namesOf_iff.mpr ⟨hx, hone⟩⟩

theorem noted_rule (name : String) : Noted s (.rule name) :=
  ⟨fun hkind => absurd rfl hkind, fun hone => absurd rfl hone⟩

theorem Noted.single {x : Symbol} (hx : Noted s x) : Noted s x.single :=
  ⟨hx.terminal, fun hone => absurd rfl hone⟩

theorem Noted.replicate {x : Symbol} (hx : Noted s x) {n : Nat} :
    ∀ y ∈ List.replicate n x.single, Noted s y := by
  intro y hy
  rw [List.eq_of_mem_replicate hy]
  exact hx.single

theorem noted_of_find {name : String} {r : Rule} (hfind : s.find? name = some r) {q : Nat}
    {alternative : List Symbol} (hq : r.alternatives[q]? = some alternative) :
    ∀ y ∈ alternative, Noted s y :=
  fun y hy => noted_of_occurs (RuleSet.occurs_of_find hfind hq y hy)

/-! ### Two accounts of literals and patterns -/

mutual

/-- **Derivations depend on what is taken** by the literals and patterns that occur, and on nothing
else of the account. -/
theorem DerivesAt.imp (hAB : ∀ x, x.kind ≠ .rule → x.single ∈ (Listing.namesOf s).terminals →
      ∀ i k, A x i k → B x i k) {x : Symbol} {i k : Nat} {d : Derivation} (hx : Noted s x) :
    DerivesAt s A cs x i k d → DerivesAt s B cs x i k d
  | .token hkind hone h => .token hkind hone (hAB x hkind (hx.terminal hkind) _ _ h)
  | .rule hkind hone hfind hq h =>
    .rule hkind hone hfind hq (AllDeriveAt.imp hAB (noted_of_find hfind hq) h)
  | .absent hoptional => .absent hoptional
  | .present hoptional h => .present hoptional (DerivesAt.imp hAB hx.single h)
  | .many hmany h => .many hmany (AllDeriveAt.imp hAB hx.replicate h)

theorem AllDeriveAt.imp (hAB : ∀ x, x.kind ≠ .rule → x.single ∈ (Listing.namesOf s).terminals →
      ∀ i k, A x i k → B x i k) {xs : List Symbol} {i k : Nat} {ds : List Derivation}
    (hxs : ∀ x ∈ xs, Noted s x) : AllDeriveAt s A cs xs i k ds → AllDeriveAt s B cs xs i k ds
  | .nil => .nil
  | .cons h hrest => by
    obtain ⟨hx, hxs⟩ := List.forall_mem_cons.mp hxs
    exact .cons (h.imp hAB hx) (hrest.imp hAB hxs)

end

end

namespace Listing

/-- **What a literal or pattern takes** as a terminal of the listing. -/
def Between (M : Matching) (cs : List Char) (x : Symbol) (i k : Nat) : Prop :=
  Takes M cs (terminalRegex x) i k

variable {s : RuleSet} {M : Matching} {cs : List Char} {x : Symbol}

/-! ### The lines of a rule set -/

theorem mem_expansions_iff {n : Names} {r : Rule} {e : Expansion} : e ∈ expansions n r ↔
    ∃ q alternative, r.alternatives[q]? = some alternative ∧
      e = ⟨alternative.map n.name, label r.name q⟩ := by
  rw [expansions, List.mem_map]
  constructor
  · rintro ⟨⟨alternative, q⟩, hmem, rfl⟩
    exact ⟨q, alternative, List.mk_mem_zipIdx_iff_getElem?.mp hmem, rfl⟩
  · rintro ⟨q, alternative, hq, rfl⟩
    exact ⟨(alternative, q), List.mk_mem_zipIdx_iff_getElem?.mpr hq, rfl⟩

/-- What the name of a symbol begins with. -/
theorem initial_name (x : Symbol) : initial ((namesOf s).name x) = some 'h' ∧ x.cardinality ≠ .one ∨
    initial ((namesOf s).name x) = some 'r' ∧ x.cardinality = .one ∧ x.kind = .rule ∨
    (initial ((namesOf s).name x) = some 'L' ∨ initial ((namesOf s).name x) = some 'P') ∧
      x.cardinality = .one ∧ x.kind ≠ .rule := by
  by_cases hone : x.cardinality = .one
  · right
    rw [Names.name, if_pos hone, Names.base]
    by_cases hkind : x.kind = .rule
    · exact .inl ⟨by rw [if_pos hkind, initial_mangle], hone, hkind⟩
    · exact .inr ⟨by rw [if_neg hkind]; exact initial_terminal _ x, hone, hkind⟩
  · exact .inl ⟨initial_helper hone, hone⟩

/-- **The name of a rule** leads to the line of the rule. -/
theorem mem_rules_iff (hnames : s.names.Nodup) {es : List Expansion} :
    ((namesOf s).name x, es) ∈ (translate s).rules ↔ x.kind = .rule ∧ x.cardinality = .one ∧
      ∃ r, s.find? x.value = some r ∧ es = expansions (namesOf s) r := by
  have hrules : ((namesOf s).name x, es) ∈ (translate s).rules ↔
      ∃ r ∈ s.rules, mangle r.name = (namesOf s).name x ∧ expansions (namesOf s) r = es := by
    simp [translate, Prod.mk.injEq]
  rw [hrules]
  constructor
  · rintro ⟨r, hr, hname, rfl⟩
    have hinitial := initial_mangle r.name
    rw [hname] at hinitial
    obtain ⟨hkind, hone⟩ : x.kind = .rule ∧ x.cardinality = .one := by
      rcases @initial_name s x with ⟨h, -⟩ | ⟨-, hone, hkind⟩ | ⟨h | h, -⟩
      · cases h.symm.trans hinitial
      · exact ⟨hkind, hone⟩
      · cases h.symm.trans hinitial
      · cases h.symm.trans hinitial
    rw [Names.name, if_pos hone, Names.base, if_pos hkind] at hname
    exact ⟨hkind, hone, r, (RuleSet.find_eq_some_iff hnames).mpr ⟨hr, mangle_injective hname⟩, rfl⟩
  · rintro ⟨hkind, hone, r, hfind, rfl⟩
    obtain ⟨hr, hname⟩ := (RuleSet.find_eq_some_iff hnames).mp hfind
    refine ⟨r, hr, ?_, rfl⟩
    rw [hname, Names.name, if_pos hone, Names.base, if_pos hkind]

/-- **The name of an optional or repeated symbol** leads to the line of its helper rule. -/
theorem mem_helpers_iff (hx : Noted s x) {base : String} {often : Cardinality} :
    ((namesOf s).name x, base, often) ∈ (translate s).helpers ↔
      x.cardinality ≠ .one ∧ often = x.cardinality ∧ base = (namesOf s).name x.single := by
  have hhelpers : ((namesOf s).name x, base, often) ∈ (translate s).helpers ↔
      ∃ y ∈ (namesOf s).helpers, (namesOf s).name y = (namesOf s).name x ∧
        (namesOf s).base y = base ∧ y.cardinality = often := by
    simp [translate, Prod.mk.injEq]
  rw [hhelpers]
  constructor
  · rintro ⟨y, hy, hname, rfl, rfl⟩
    have hyone := (mem_helpers_namesOf_iff.mp hy).2
    have hinitial : initial ((namesOf s).name x) = some 'h' := by rw [← hname, initial_helper hyone]
    have hone : x.cardinality ≠ .one := by
      rcases @initial_name s x with ⟨-, hone⟩ | ⟨h, -⟩ | ⟨h | h, -⟩
      · exact hone
      · cases h.symm.trans hinitial
      · cases h.symm.trans hinitial
      · cases h.symm.trans hinitial
    obtain rfl := (Names.name_eq_iff hy hyone hone).mp hname
    exact ⟨hone, rfl, rfl⟩
  · rintro ⟨hone, rfl, rfl⟩
    exact ⟨x, hx.helper hone, rfl, rfl, rfl⟩

/-- **The name of a literal or pattern** leads to the line of its terminal. -/
theorem mem_terminals_iff (hx : Noted s x) {regex : String} :
    ((namesOf s).name x, regex) ∈ (translate s).terminals ↔
      x.kind ≠ .rule ∧ x.cardinality = .one ∧ regex = terminalRegex x := by
  have hterminals : ((namesOf s).name x, regex) ∈ (translate s).terminals ↔
      ∃ y ∈ (namesOf s).terminals, (namesOf s).terminal y = (namesOf s).name x ∧
        terminalRegex y = regex := by
    simp [translate, Prod.mk.injEq]
  rw [hterminals]
  constructor
  · rintro ⟨y, hy, hname, rfl⟩
    have hinitial := initial_terminal (namesOf s) y
    rw [hname] at hinitial
    obtain ⟨hkind, hone⟩ : x.kind ≠ .rule ∧ x.cardinality = .one := by
      rcases @initial_name s x with ⟨h, -⟩ | ⟨h, -⟩ | ⟨-, hone, hkind⟩
      · simp [h] at hinitial
      · simp [h] at hinitial
      · exact ⟨hkind, hone⟩
    rw [Names.name, if_pos hone, Names.base, if_neg hkind] at hname
    obtain ⟨hkinds, hvalues⟩ := (Names.terminal_eq_iff (hx.terminal hkind)).mp hname.symm
    refine ⟨hkind, hone, ?_⟩
    rw [terminalRegex, terminalRegex, hkinds, hvalues]
  · rintro ⟨hkind, hone, rfl⟩
    refine ⟨x.single, hx.terminal hkind, ?_, rfl⟩
    rw [Names.name, if_pos hone, Names.base, if_neg hkind]
    rfl

/-! ### Trees are derivations -/

mutual

/-- **A tree under the name of a symbol** is that of a derivation from the symbol. -/
theorem exists_derivesAt (hnames : s.names.Nodup) {name : String} {i k : Nat} {t : Labelled}
    (h : (translate s).IsTree M cs name i k t) (x : Symbol) (hx : Noted s x)
    (hname : (namesOf s).name x = name) :
    ∃ d, DerivesAt s (Between M cs) cs x i k d ∧ d.labelled s (namesOf s) x = t :=
  match h with
  | .token hline htakes => by
    subst hname
    obtain ⟨hkind, hone, rfl⟩ := (mem_terminals_iff hx).mp hline
    exact ⟨_, .token hkind hone htakes, Derivation.labelled_token hone _⟩
  | .rule hline he hts => by
    subst hname
    obtain ⟨hkind, hone, r, hfind, rfl⟩ := (mem_rules_iff hnames).mp hline
    obtain ⟨q, alternative, hq, rfl⟩ := mem_expansions_iff.mp he
    obtain ⟨ds, hds, rfl⟩ :=
      exists_allDeriveAt hnames hts alternative (noted_of_find hfind hq) rfl
    exact ⟨_, .rule hkind hone hfind hq hds, Derivation.labelled_rule hone hfind hq⟩
  | .absent hline => by
    subst hname
    obtain ⟨-, hoptional, -⟩ := (mem_helpers_iff hx).mp hline
    exact ⟨.absent, .absent hoptional.symm, by rw [Derivation.labelled]⟩
  | .present hline ht => by
    subst hname
    obtain ⟨-, hoptional, hbase⟩ := (mem_helpers_iff hx).mp hline
    obtain ⟨d, hd, rfl⟩ := exists_derivesAt hnames ht x.single hx.single hbase.symm
    exact ⟨d, .present hoptional.symm hd, Derivation.labelled_present hoptional.symm hd.fits⟩
  | .many hline hts => by
    subst hname
    obtain ⟨-, hmany, hbase⟩ := (mem_helpers_iff hx).mp hline
    obtain ⟨ds, hds, rfl⟩ := exists_allDeriveAt hnames hts (List.replicate _ x.single) hx.replicate
      (by rw [List.map_replicate, hbase])
    exact ⟨.many ds, .many hmany.symm hds, Derivation.labelled_many hds.fits⟩

theorem exists_allDeriveAt (hnames : s.names.Nodup) {names : List String} {i k : Nat}
    {ts : List Labelled} (h : (translate s).AreTrees M cs names i k ts) (xs : List Symbol) (hxs : ∀ x ∈ xs, Noted s x)
    (hname : xs.map (namesOf s).name = names) :
    ∃ ds, AllDeriveAt s (Between M cs) cs xs i k ds ∧
      Derivation.labelledAll s (namesOf s) xs ds = ts :=
  match h with
  | .nil => by
    rw [List.map_eq_nil_iff] at hname
    subst hname
    exact ⟨[], .nil, rfl⟩
  | .cons ht hts => by
    obtain ⟨x, xs, rfl, hx, hrest⟩ := List.map_eq_cons_iff.mp hname
    obtain ⟨hnoted, hxs⟩ := List.forall_mem_cons.mp hxs
    obtain ⟨d, hd, rfl⟩ := exists_derivesAt hnames ht x hnoted hx
    obtain ⟨ds, hds, rfl⟩ := exists_allDeriveAt hnames hts xs hxs hrest
    exact ⟨d :: ds, .cons hd hds, rfl⟩

end

mutual

/-- **The tree of a derivation** stands under the name of the symbol. -/
theorem isTree_of_derivesAt (hnames : s.names.Nodup) {x : Symbol} {i k : Nat} {d : Derivation}
    (hx : Noted s x) : DerivesAt s (Between M cs) cs x i k d →
      (translate s).IsTree M cs ((namesOf s).name x) i k (d.labelled s (namesOf s) x)
  | .token hkind hone htakes => by
    rw [Derivation.labelled_token hone]
    exact .token ((mem_terminals_iff hx).mpr ⟨hkind, hone, rfl⟩) htakes
  | .rule hkind hone hfind hq hds => by
    rw [Derivation.labelled_rule hone hfind hq]
    exact .rule ((mem_rules_iff hnames).mpr ⟨hkind, hone, _, hfind, rfl⟩)
      (mem_expansions_iff.mpr ⟨_, _, hq, rfl⟩)
      (areTrees_of_allDeriveAt hnames (noted_of_find hfind hq) hds)
  | .absent hoptional => by
    rw [Derivation.labelled]
    exact .absent ((mem_helpers_iff hx).mpr ⟨by simp [hoptional], hoptional.symm, rfl⟩)
  | .present hoptional hd => by
    rw [Derivation.labelled_present hoptional hd.fits]
    exact .present ((mem_helpers_iff hx).mpr ⟨by simp [hoptional], hoptional.symm, rfl⟩)
      (isTree_of_derivesAt hnames hx.single hd)
  | .many hmany hds => by
    have htrees := areTrees_of_allDeriveAt hnames hx.replicate hds
    rw [List.map_replicate] at htrees
    rw [Derivation.labelled_many hds.fits]
    exact .many ((mem_helpers_iff hx).mpr ⟨by simp [hmany], hmany.symm, rfl⟩) htrees

theorem areTrees_of_allDeriveAt (hnames : s.names.Nodup) {xs : List Symbol} {i k : Nat}
    {ds : List Derivation} (hxs : ∀ x ∈ xs, Noted s x) : AllDeriveAt s (Between M cs) cs xs i k ds →
      (translate s).AreTrees M cs (xs.map (namesOf s).name) i k
        (Derivation.labelledAll s (namesOf s) xs ds)
  | .nil => .nil
  | .cons hd hds => by
    obtain ⟨hx, hxs⟩ := List.forall_mem_cons.mp hxs
    exact .cons (isTree_of_derivesAt hnames hx hd) (areTrees_of_allDeriveAt hnames hxs hds)

end

/-- **The trees of a listing are the derivations** of its rule set, name by name. -/
theorem isTree_iff (hnames : s.names.Nodup) (hx : Noted s x) {i k : Nat} {t : Labelled} :
    (translate s).IsTree M cs ((namesOf s).name x) i k t ↔
      ∃ d, DerivesAt s (Between M cs) cs x i k d ∧ d.labelled s (namesOf s) x = t := by
  constructor
  · exact fun h => exists_derivesAt hnames h x hx rfl
  · rintro ⟨d, hd, rfl⟩
    exact isTree_of_derivesAt hnames hx hd

theorem length_labelledAll {n : Names} {xs : List Symbol} {ds : List Derivation}
    (h : AllFit s xs ds) : (Derivation.labelledAll s n xs ds).length = xs.length := by
  induction xs generalizing ds with
  | nil =>
    cases h
    rfl
  | cons x xs ih =>
    cases h with
    | cons _ hds => rw [Derivation.labelledAll, List.length_cons, List.length_cons, ih hds]

mutual

/-- **Different derivations have different trees.** -/
theorem labelled_injective {n : Names} {x : Symbol} {d d' : Derivation} (h : Fits s x d)
    (h' : Fits s x d') (heq : d.labelled s n x = d'.labelled s n x) : d = d' :=
  match h with
  | .token hkind hone => by
    cases h' with
    | token =>
      rw [Derivation.labelled_token hone, Derivation.labelled_token hone, Labelled.token.injEq] at heq
      rw [heq]
    | rule hrule => exact absurd hrule hkind
    | absent h => cases hone.symm.trans h
    | present h => cases hone.symm.trans h
    | many h => cases hone.symm.trans h
  | .rule hkind hone hfind hq hds => by
    cases h' with
    | token h => exact absurd hkind h
    | rule _ _ hfind' hq' hds' =>
      cases hfind.symm.trans hfind'
      rw [Derivation.labelled_rule hone hfind hq, Derivation.labelled_rule hone hfind hq',
        Labelled.node.injEq, label_eq_iff] at heq
      obtain ⟨⟨-, rfl⟩, hparts⟩ := heq
      cases hq.symm.trans hq'
      rw [labelledAll_injective hds hds' hparts]
    | absent h => cases hone.symm.trans h
    | present h => cases hone.symm.trans h
    | many h => cases hone.symm.trans h
  | .absent hoptional => by
    cases h' with
    | token _ h => cases h.symm.trans hoptional
    | rule _ h => cases h.symm.trans hoptional
    | absent => rfl
    | present _ hd' =>
      rw [Derivation.labelled, Derivation.labelled_present hoptional hd'] at heq
      simp at heq
    | many h => cases h.symm.trans hoptional
  | .present hoptional hd => by
    cases h' with
    | token _ h => cases h.symm.trans hoptional
    | rule _ h => cases h.symm.trans hoptional
    | absent =>
      rw [Derivation.labelled_present hoptional hd, Derivation.labelled] at heq
      simp at heq
    | present _ hd' =>
      rw [Derivation.labelled_present hoptional hd, Derivation.labelled_present hoptional hd',
        Labelled.node.injEq, List.cons.injEq] at heq
      exact labelled_injective hd hd' heq.2.1
    | many h => cases h.symm.trans hoptional
  | .many hmany hds => by
    cases h' with
    | token _ h => cases h.symm.trans hmany
    | rule _ h => cases h.symm.trans hmany
    | absent h => cases h.symm.trans hmany
    | present h => cases h.symm.trans hmany
    | many _ hds' =>
      rw [Derivation.labelled_many hds, Derivation.labelled_many hds', Labelled.node.injEq] at heq
      have hlength := congrArg List.length heq.2
      rw [length_labelledAll hds, length_labelledAll hds', List.length_replicate,
        List.length_replicate] at hlength
      subst hlength
      rw [labelledAll_injective hds hds' heq.2]

theorem labelledAll_injective {n : Names} {xs : List Symbol} {ds ds' : List Derivation}
    (h : AllFit s xs ds) (h' : AllFit s xs ds')
    (heq : Derivation.labelledAll s n xs ds = Derivation.labelledAll s n xs ds') : ds = ds' :=
  match h with
  | .nil => by
    cases h'
    rfl
  | .cons hd hds => by
    cases h' with
    | cons hd' hds' =>
      rw [Derivation.labelledAll, Derivation.labelledAll, List.cons.injEq] at heq
      rw [labelled_injective hd hd' heq.1, labelledAll_injective hds hds' heq.2]

end

end Listing

end Covenant
