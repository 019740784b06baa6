import Covenant.Grammar.Action
import Covenant.Grammar.Derivation
import Covenant.Proofs.Grammar.RuleSet
import Covenant.Proofs.Outcome

/-!
Derivations as a relation.

* `Derives`: a symbol of a rule set derives a text.
* `derives_rule_iff`, `derives_optional_iff`, `derives_many_iff`: derivations taken apart.
* `Reads`: a text has a derivation with a value; `reads_rule` builds one.
-/

namespace Covenant

/-- A text that a literal or pattern takes as a whole. -/
def Symbol.Accepts (x : Symbol) (cs : List Char) : Prop :=
  x.toPattern.match? cs = some cs.length

mutual

/-- **What a symbol derives**: a literal or pattern a text that it takes, a rule what one
of its alternatives derives, an optional symbol nothing or what it derives once, and a
repeated one what it derives any number of times. -/
inductive Derives (s : RuleSet) : Symbol → List Char → Derivation → Prop where
  | token {x : Symbol} {cs : List Char} (hkind : x.kind ≠ .rule) (hone : x.cardinality = .one)
      (h : x.Accepts cs) : Derives s x cs (.token (String.ofList cs))
  | rule {x : Symbol} {cs : List Char} {r : Rule} {q : Nat} {alternative : List Symbol}
      {ds : List Derivation} (hkind : x.kind = .rule) (hone : x.cardinality = .one)
      (hfind : s.find? x.value = some r) (hq : r.alternatives[q]? = some alternative)
      (h : DerivesAll s alternative cs ds) : Derives s x cs (.node x.value q ds)
  | absent {x : Symbol} (hoptional : x.cardinality = .optional) : Derives s x [] .absent
  | present {x : Symbol} {cs : List Char} {d : Derivation} (hoptional : x.cardinality = .optional)
      (h : Derives s x.single cs d) : Derives s x cs d
  | many {x : Symbol} {n : Nat} {cs : List Char} {ds : List Derivation}
      (hmany : x.cardinality = .many) (h : DerivesAll s (List.replicate n x.single) cs ds) :
      Derives s x cs (.many ds)

/-- What symbols derive one after the other. -/
inductive DerivesAll (s : RuleSet) : List Symbol → List Char → List Derivation → Prop where
  | nil : DerivesAll s [] [] []
  | cons {x : Symbol} {xs : List Symbol} {cs cs' : List Char} {d : Derivation}
      {ds : List Derivation} (h : Derives s x cs d) (hrest : DerivesAll s xs cs' ds) :
      DerivesAll s (x :: xs) (cs ++ cs') (d :: ds)

end

section

variable {s : RuleSet}

/-! ### Taking derivations apart -/

/-- A reference to a rule derives what one of the rule's alternatives derives. -/
theorem derives_rule_iff {name : String} {cs : List Char} {d : Derivation} :
    Derives s (.rule name) cs d ↔ ∃ r q alternative ds, s.find? name = some r ∧
      r.alternatives[q]? = some alternative ∧ DerivesAll s alternative cs ds ∧
        d = .node name q ds := by
  constructor
  · intro h
    cases h with
    | token hkind => exact absurd rfl hkind
    | rule _ _ hfind hq h => exact ⟨_, _, _, _, hfind, hq, h, rfl⟩
    | absent hoptional => cases hoptional
    | present hoptional => cases hoptional
    | many hmany => cases hmany
  · rintro ⟨r, q, alternative, ds, hfind, hq, h, rfl⟩
    exact .rule rfl rfl hfind hq h

/-- An optional symbol derives the empty text, or what the symbol itself derives. -/
theorem derives_optional_iff {x : Symbol} (hx : x.cardinality = .optional) {cs : List Char}
    {d : Derivation} : Derives s x cs d ↔ (cs = [] ∧ d = .absent) ∨ Derives s x.single cs d := by
  constructor
  · intro h
    cases h with
    | token _ hone => cases hone.symm.trans hx
    | rule _ hone => cases hone.symm.trans hx
    | absent => exact .inl ⟨rfl, rfl⟩
    | present _ h => exact .inr h
    | many hmany => cases hmany.symm.trans hx
  · rintro (⟨rfl, rfl⟩ | h)
    · exact .absent hx
    · exact .present hx h

/-- A starred symbol derives any number of repetitions of the symbol. -/
theorem derives_many_iff {x : Symbol} (hx : x.cardinality = .many) {cs : List Char}
    {d : Derivation} : Derives s x cs d ↔
      ∃ n ds, DerivesAll s (List.replicate n x.single) cs ds ∧ d = .many ds := by
  constructor
  · intro h
    cases h with
    | token _ hone => cases hone.symm.trans hx
    | rule _ hone => cases hone.symm.trans hx
    | absent hoptional => cases hoptional.symm.trans hx
    | present hoptional => cases hoptional.symm.trans hx
    | many _ h => exact ⟨_, _, h, rfl⟩
  · rintro ⟨n, ds, h, rfl⟩
    exact .many hx h

/-- A terminal derives the texts it accepts. -/
theorem derives_token_iff {x : Symbol} (hkind : x.kind ≠ .rule) (hone : x.cardinality = .one)
    {cs : List Char} {d : Derivation} :
    Derives s x cs d ↔ x.Accepts cs ∧ d = .token (String.ofList cs) := by
  constructor
  · intro h
    cases h with
    | token _ _ h => exact ⟨h, rfl⟩
    | rule h => exact absurd h hkind
    | absent hoptional => cases hoptional.symm.trans hone
    | present hoptional => cases hoptional.symm.trans hone
    | many hmany => cases hmany.symm.trans hone
  · rintro ⟨h, rfl⟩
    exact .token hkind hone h

/-- A sequence splits the text at the end of its first symbol. -/
theorem derivesAll_cons_iff {x : Symbol} {xs : List Symbol} {cs : List Char}
    {es : List Derivation} : DerivesAll s (x :: xs) cs es ↔
      ∃ cs₁ cs₂ d ds, cs = cs₁ ++ cs₂ ∧ es = d :: ds ∧ Derives s x cs₁ d ∧
        DerivesAll s xs cs₂ ds := by
  constructor
  · rintro (_ | ⟨h, hrest⟩)
    exact ⟨_, _, _, _, rfl, rfl, h, hrest⟩
  · rintro ⟨cs₁, cs₂, d, ds, rfl, rfl, h, hrest⟩
    exact .cons h hrest

theorem derivesAll_nil_iff {cs : List Char} {es : List Derivation} :
    DerivesAll s [] cs es ↔ cs = [] ∧ es = [] := by
  constructor
  · rintro ⟨⟩
    exact ⟨rfl, rfl⟩
  · rintro ⟨rfl, rfl⟩
    exact .nil

theorem derivesAll_singleton_iff {x : Symbol} {cs : List Char} {es : List Derivation} :
    DerivesAll s [x] cs es ↔ ∃ d, es = [d] ∧ Derives s x cs d := by
  rw [derivesAll_cons_iff]
  constructor
  · rintro ⟨cs₁, cs₂, d, ds, rfl, rfl, h, hrest⟩
    obtain ⟨rfl, rfl⟩ := derivesAll_nil_iff.mp hrest
    exact ⟨d, rfl, by rwa [List.append_nil]⟩
  · rintro ⟨d, rfl, h⟩
    exact ⟨cs, [], d, [], by simp, rfl, h, .nil⟩

/-- A single literal or pattern derives a text that it takes, as a token. -/
theorem derivesAll_token_iff {x : Symbol} (hkind : x.kind ≠ .rule) (hone : x.cardinality = .one)
    {cs : List Char} {es : List Derivation} :
    DerivesAll s [x] cs es ↔ x.Accepts cs ∧ es = [.token (String.ofList cs)] := by
  rw [derivesAll_singleton_iff]
  simp only [derives_token_iff hkind hone]
  constructor
  · rintro ⟨d, rfl, haccepts, rfl⟩
    exact ⟨haccepts, rfl⟩
  · rintro ⟨haccepts, rfl⟩
    exact ⟨_, rfl, haccepts, rfl⟩

/-- A rule with a single alternative is read by it. -/
theorem eq_of_alternatives {r : Rule} {a alternative : List Symbol} (h : r.alternatives = [a])
    {q : Nat} (hq : r.alternatives[q]? = some alternative) : alternative = a := by
  rw [h] at hq
  exact List.mem_singleton.mp (List.mem_of_getElem? hq)

/-- **What literals and patterns derive** one after the other: texts that they take, as tokens. -/
theorem derivesAll_tokens_iff {xs : List Symbol}
    (hxs : ∀ x ∈ xs, x.kind ≠ .rule ∧ x.cardinality = .one) {cs : List Char}
    {es : List Derivation} : DerivesAll s xs cs es ↔
      ∃ pieces : List (List Char), List.Forall₂ Symbol.Accepts xs pieces ∧ pieces.flatten = cs ∧
        es = (pieces.map String.ofList).map .token := by
  induction xs generalizing cs es with
  | nil =>
    rw [derivesAll_nil_iff]
    constructor
    · rintro ⟨rfl, rfl⟩
      exact ⟨[], .nil, rfl, rfl⟩
    · rintro ⟨_, ⟨⟩, rfl, rfl⟩
      exact ⟨rfl, rfl⟩
  | cons x xs ih =>
    obtain ⟨⟨hkind, hone⟩, hxs⟩ := List.forall_mem_cons.mp hxs
    rw [derivesAll_cons_iff]
    simp only [derives_token_iff hkind hone, ih hxs]
    constructor
    · rintro ⟨cs, _, _, _, rfl, rfl, ⟨hcs, rfl⟩, pieces, hpieces, rfl, rfl⟩
      exact ⟨cs :: pieces, .cons hcs hpieces, rfl, rfl⟩
    · rintro ⟨pieces, hpieces, rfl, rfl⟩
      obtain ⟨cs, rest, hcs, hrest, rfl⟩ := List.forall₂_cons_left_iff.mp hpieces
      exact ⟨cs, _, _, _, rfl, rfl, ⟨hcs, rfl⟩, rest, hrest, rfl, rfl⟩

/-- A sequence splits the text wherever the sequence itself is split. -/
theorem derivesAll_append_iff {xs ys : List Symbol} {cs : List Char} {es : List Derivation} :
    DerivesAll s (xs ++ ys) cs es ↔
      ∃ cs₁ cs₂ ds ds', cs = cs₁ ++ cs₂ ∧ es = ds ++ ds' ∧ DerivesAll s xs cs₁ ds ∧
        DerivesAll s ys cs₂ ds' := by
  induction xs generalizing cs es with
  | nil =>
    constructor
    · intro h
      exact ⟨[], cs, [], es, rfl, rfl, .nil, h⟩
    · rintro ⟨cs₁, cs₂, ds, ds', rfl, rfl, hnil, h⟩
      obtain ⟨rfl, rfl⟩ := derivesAll_nil_iff.mp hnil
      exact h
  | cons x xs ih =>
    rw [List.cons_append, derivesAll_cons_iff]
    constructor
    · rintro ⟨cs₁, cs₂, d, ds, rfl, rfl, hd, hds⟩
      obtain ⟨cs₂, cs₃, ds, ds', rfl, rfl, hxs, hys⟩ := ih.mp hds
      exact ⟨cs₁ ++ cs₂, cs₃, d :: ds, ds', by simp, rfl, .cons hd hxs, hys⟩
    · rintro ⟨cs₁, cs₂, ds, ds', rfl, rfl, hxs, hys⟩
      obtain ⟨cs₁, cs₃, d, ds, rfl, rfl, hd, hds⟩ := derivesAll_cons_iff.mp hxs
      exact ⟨cs₁, cs₃ ++ cs₂, d, ds ++ ds', by simp, rfl, hd, ih.mpr ⟨_, _, _, _, rfl, rfl, hds, hys⟩⟩

/-- A sequence has one derivation for each of its symbols. -/
theorem DerivesAll.length {xs : List Symbol} {cs : List Char} {ds : List Derivation}
    (h : DerivesAll s xs cs ds) : ds.length = xs.length := by
  induction xs generalizing cs ds with
  | nil =>
    obtain ⟨_, rfl⟩ := derivesAll_nil_iff.mp h
    rfl
  | cons x xs ih =>
    obtain ⟨_, _, _, _, _, rfl, _, hrest⟩ := derivesAll_cons_iff.mp h
    rw [List.length_cons, List.length_cons, ih hrest]

end

/-! ### Values of derivations -/

namespace Derivation

mutual

def within : Derivation → List Derivation
  | .token t => [.token t]
  | .node rule q ds => .node rule q ds :: withinAll ds
  | .absent => [.absent]
  | .many ds => .many ds :: withinAll ds

def withinAll : List Derivation → List Derivation
  | [] => []
  | d :: ds => d.within ++ withinAll ds

end

theorem self_mem_within (d : Derivation) : d ∈ d.within := by
  cases d <;> simp [within]

theorem within_subset_withinAll {d : Derivation} {ds : List Derivation} (h : d ∈ ds) :
    d.within ⊆ withinAll ds := by
  induction ds with
  | nil => cases h
  | cons e ds ih =>
    rw [withinAll]
    rcases List.mem_cons.mp h with rfl | h
    · exact List.subset_append_left _ _
    · exact List.subset_append_of_subset_right _ (ih h)

/-- What a derivation is made of, without itself. -/
def inside : Derivation → List Derivation
  | .node _ _ ds | .many ds => withinAll ds
  | .token _ | .absent => []

/-- The parts of a derivation: itself and what lies inside. -/
theorem within_eq (d : Derivation) : d.within = d :: d.inside := by
  cases d <;> rfl

theorem inside_subset_within (d : Derivation) : d.inside ⊆ d.within := by
  rw [within_eq]
  exact List.subset_cons_self d d.inside

mutual

/-- A property that passes from the parts inside to the whole holds of every part. -/
theorem forall_within {P : Derivation → Prop} (h : ∀ d, (∀ e ∈ d.inside, P e) → P d) :
    ∀ d, ∀ e ∈ within d, P e
  | .token t => List.forall_mem_singleton.mpr (h (.token t) (by simp [inside]))
  | .absent => List.forall_mem_singleton.mpr (h .absent (by simp [inside]))
  | .node rule q ds =>
    List.forall_mem_cons.mpr ⟨h (.node rule q ds) (forall_withinAll h ds), forall_withinAll h ds⟩
  | .many ds =>
    List.forall_mem_cons.mpr ⟨h (.many ds) (forall_withinAll h ds), forall_withinAll h ds⟩

theorem forall_withinAll {P : Derivation → Prop} (h : ∀ d, (∀ e ∈ d.inside, P e) → P d) :
    ∀ ds, ∀ e ∈ withinAll ds, P e
  | [] => by simp [withinAll]
  | d :: ds => List.forall_mem_append.mpr ⟨forall_within h d, forall_withinAll h ds⟩

end

/-- **Induction over all that a derivation is made of.** -/
theorem inside_induction {P : Derivation → Prop} (h : ∀ d, (∀ e ∈ d.inside, P e) → P d)
    (d : Derivation) : P d :=
  forall_within h d d (self_mem_within d)

/-- A part of several derivations is a part of one of them. -/
theorem mem_withinAll {e : Derivation} {ds : List Derivation} :
    e ∈ withinAll ds ↔ ∃ d ∈ ds, e ∈ d.within := by
  induction ds with
  | nil => simp [withinAll]
  | cons d ds ih => simp [withinAll, ih]

/-- The parts of a part are parts of the whole. -/
theorem within_subset_of_mem {d e : Derivation} (he : e ∈ d.within) : e.within ⊆ d.within := by
  induction d using inside_induction with
  | h d ih =>
    rw [within_eq d] at he ⊢
    rcases List.mem_cons.mp he with rfl | he
    · rw [← within_eq]
      exact List.Subset.refl _
    · refine List.subset_cons_of_subset d ?_
      have hparts : ∀ ds, (∀ x ∈ withinAll ds, e ∈ x.within → e.within ⊆ x.within) →
          e ∈ withinAll ds → e.within ⊆ withinAll ds := by
        intro ds ih he
        obtain ⟨x, hx, hex⟩ := mem_withinAll.mp he
        exact List.Subset.trans (ih x (mem_withinAll.mpr ⟨x, hx, self_mem_within x⟩) hex)
          (within_subset_withinAll hx)
      cases d with
      | token t => cases he
      | absent => cases he
      | node rule q ds => exact hparts ds ih he
      | many ds => exact hparts ds ih he

theorem within_subset_many {d : Derivation} {ds : List Derivation} (h : d ∈ ds) :
    d.within ⊆ (many ds).within := by
  rw [within]
  exact List.subset_cons_of_subset _ (within_subset_withinAll h)

variable {s : RuleSet} {ctx : ReadingContext}

/-- A node evaluates by its rule's action, from the values of its children. -/
theorem evaluate_node_eq_ok {name : String} {q : Nat} {ds : List Derivation} {v : Value} :
    (node name q ds).evaluate s ctx = .ok v ↔
      ∃ values r, evaluateAll s ctx ds = .ok values ∧ s.find? name = some r ∧
        r.apply ctx (r.alternatives.getD q []) values = .ok v := by
  rw [evaluate, Outcome.bind_eq_ok]
  simp only [Outcome.bind_eq_ok]
  constructor
  · rintro ⟨values, hvalues, r, hr, hv⟩
    unfold RuleSet.get at hr
    split at hr
    · cases hr
      exact ⟨values, r, hvalues, ‹_›, hv⟩
    · cases hr
  · rintro ⟨values, r, hvalues, hr, hv⟩
    exact ⟨values, hvalues, r, by rw [RuleSet.get, hr], hv⟩

/-- **A derivation from a rule with a value**: its parts have values, and the rule turns
them into its own. -/
theorem node_of_derives {name : String} {cs : List Char} {e : Derivation} {v : Value} {r : Rule}
    (h : Derives s (.rule name) cs e) (hv : e.evaluate s ctx = .ok v)
    (hfind : s.find? name = some r) : ∃ q alternative ds vs, e = .node name q ds ∧
      r.alternatives[q]? = some alternative ∧ DerivesAll s alternative cs ds ∧
        evaluateAll s ctx ds = .ok vs ∧ r.apply ctx alternative vs = .ok v := by
  obtain ⟨r', q, alternative, ds, hfind', hq, hds, rfl⟩ := derives_rule_iff.mp h
  obtain rfl : r' = r := Option.some.inj (hfind'.symm.trans hfind)
  obtain ⟨vs, r', hvs, hfind'', hv⟩ := evaluate_node_eq_ok.mp hv
  rw [hfind, Option.some.injEq] at hfind''
  subst hfind''
  rw [List.getD_eq_getElem?_getD, hq, Option.getD_some] at hv
  exact ⟨q, alternative, ds, vs, rfl, hq, hds, hvs, hv⟩

/-- A repetition evaluates to the list of its values. -/
theorem evaluate_many_eq_ok {ds : List Derivation} {v : Value} :
    (many ds).evaluate s ctx = .ok v ↔ ∃ vs, evaluateAll s ctx ds = .ok vs ∧ v = .list vs := by
  rw [evaluate, Outcome.map_eq_ok]
  simp only [eq_comm]

theorem evaluateAll_cons_eq_ok {d : Derivation} {ds : List Derivation} {vs : List Value} :
    evaluateAll s ctx (d :: ds) = .ok vs ↔
      ∃ v rest, d.evaluate s ctx = .ok v ∧ evaluateAll s ctx ds = .ok rest ∧ vs = v :: rest := by
  rw [evaluateAll, Outcome.cons_eq_ok]

theorem evaluateAll_nil_eq_ok {vs : List Value} : evaluateAll s ctx [] = .ok vs ↔ vs = [] := by
  rw [evaluateAll, Except.ok.injEq, eq_comm]

theorem evaluateAll_singleton_eq_ok {d : Derivation} {vs : List Value} :
    evaluateAll s ctx [d] = .ok vs ↔ ∃ v, d.evaluate s ctx = .ok v ∧ vs = [v] := by
  rw [evaluateAll_cons_eq_ok]
  simp only [evaluateAll_nil_eq_ok]
  constructor
  · rintro ⟨v, rest, hv, rfl, rfl⟩
    exact ⟨v, hv, rfl⟩
  · rintro ⟨v, hv, rfl⟩
    exact ⟨v, [], hv, rfl, rfl⟩

end Derivation

/-! ### Texts with values -/

/-- A text has a derivation from a symbol with this value. -/
def Reads (s : RuleSet) (ctx : ReadingContext) (x : Symbol) (cs : List Char) (v : Value) : Prop :=
  ∃ d, Derives s x cs d ∧ d.evaluate s ctx = .ok v

/-- A text has derivations from symbols, one after the other, with these values. -/
def ReadsAll (s : RuleSet) (ctx : ReadingContext) (xs : List Symbol) (cs : List Char)
    (vs : List Value) : Prop :=
  ∃ ds, DerivesAll s xs cs ds ∧ Derivation.evaluateAll s ctx ds = .ok vs

section

variable {s : RuleSet} {ctx : ReadingContext}

theorem readsAll_nil : ReadsAll s ctx [] [] [] :=
  ⟨[], .nil, rfl⟩

/-- Texts read one after another are read by the sequence. -/
theorem readsAll_cons {x : Symbol} {xs : List Symbol} {cs cs' : List Char} {v : Value}
    {vs : List Value} (h : Reads s ctx x cs v) (hrest : ReadsAll s ctx xs cs' vs) :
    ReadsAll s ctx (x :: xs) (cs ++ cs') (v :: vs) := by
  obtain ⟨d, hd, hv⟩ := h
  obtain ⟨ds, hds, hvs⟩ := hrest
  exact ⟨d :: ds, .cons hd hds, Derivation.evaluateAll_cons_eq_ok.mpr ⟨v, vs, hv, hvs, rfl⟩⟩

theorem readsAll_singleton {x : Symbol} {cs : List Char} {v : Value} (h : Reads s ctx x cs v) :
    ReadsAll s ctx [x] cs [v] := by
  simpa using readsAll_cons h readsAll_nil

/-- A terminal reads the text it accepts as that text. -/
theorem reads_token {x : Symbol} {cs : List Char} (hkind : x.kind ≠ .rule)
    (hone : x.cardinality = .one) (h : x.Accepts cs) :
    Reads s ctx x cs (.text (String.ofList cs)) :=
  ⟨_, .token hkind hone h, rfl⟩

/-- A derivation from a rule, with the value that the rule gives to those of its parts. -/
theorem derives_node {name : String} {r : Rule} (hfind : s.find? name = some r) {q : Nat}
    {alternative : List Symbol} (hq : r.alternatives[q]? = some alternative) {cs : List Char}
    {ds : List Derivation} (hds : DerivesAll s alternative cs ds) {vs : List Value}
    (hvs : Derivation.evaluateAll s ctx ds = .ok vs) {v : Value}
    (hv : r.apply ctx alternative vs = .ok v) :
    Derives s (.rule name) cs (.node name q ds) ∧
      (Derivation.node name q ds).evaluate s ctx = .ok v := by
  refine ⟨.rule rfl rfl hfind hq hds, Derivation.evaluate_node_eq_ok.mpr ?_⟩
  exact ⟨vs, r, hvs, hfind, by rwa [List.getD_eq_getElem?_getD, hq, Option.getD_some]⟩

/-- A derivation from a rule that stands for another one. -/
theorem derives_reference {name target : String} {r : Rule} (hfind : s.find? name = some r) {q : Nat}
    (hq : r.alternatives[q]? = some [.rule target]) {cs : List Char} {d : Derivation} {w v : Value}
    (h : Derives s (.rule target) cs d ∧ d.evaluate s ctx = .ok w)
    (hv : r.apply ctx [.rule target] [w] = .ok v) :
    Derives s (.rule name) cs (.node name q [d]) ∧
      (Derivation.node name q [d]).evaluate s ctx = .ok v :=
  derives_node hfind hq (derivesAll_singleton_iff.mpr ⟨_, rfl, h.1⟩)
    (Derivation.evaluateAll_singleton_eq_ok.mpr ⟨_, h.2, rfl⟩) hv

/-- A derivation from a rule of a single token. -/
theorem derives_token_node {name : String} {r : Rule} (hfind : s.find? name = some r) {q : Nat}
    {x : Symbol} (hq : r.alternatives[q]? = some [x]) (hkind : x.kind ≠ .rule)
    (hone : x.cardinality = .one) {text : String} (haccepts : x.Accepts text.toList) {v : Value}
    (hv : r.apply ctx [x] [.text text] = .ok v) :
    Derives s (.rule name) text.toList (.node name q [.token text]) ∧
      (Derivation.node name q [.token text]).evaluate s ctx = .ok v :=
  derives_node hfind hq (derivesAll_singleton_iff.mpr ⟨_, rfl,
    (derives_token_iff hkind hone).mpr ⟨haccepts, by rw [String.ofList_toList]⟩⟩) rfl hv

/-- **A rule reads** what one of its alternatives reads, with the value that the rule
gives to the values of the parts. -/
theorem reads_rule {name : String} {r : Rule} (hfind : s.find? name = some r) {q : Nat}
    {alternative : List Symbol} (hq : r.alternatives[q]? = some alternative) {cs : List Char}
    {vs : List Value} (h : ReadsAll s ctx alternative cs vs) {v : Value}
    (hv : r.apply ctx alternative vs = .ok v) : Reads s ctx (.rule name) cs v := by
  obtain ⟨ds, hds, hvs⟩ := h
  exact ⟨_, derives_node hfind hq hds hvs hv⟩

/-- An optional symbol reads the empty text as no value. -/
theorem reads_absent {x : Symbol} (hx : x.cardinality = .optional) : Reads s ctx x [] .null :=
  ⟨.absent, .absent hx, rfl⟩

/-- An optional symbol reads what the symbol itself reads. -/
theorem reads_present {x : Symbol} (hx : x.cardinality = .optional) {cs : List Char} {v : Value}
    (h : Reads s ctx x.single cs v) : Reads s ctx x cs v := by
  obtain ⟨d, hd, hv⟩ := h
  exact ⟨d, .present hx hd, hv⟩

/-- Repetitions are read to the list of their values. -/
theorem reads_many {x : Symbol} (hx : x.cardinality = .many) {css : List (List Char)}
    {vs : List Value} (h : List.Forall₂ (Reads s ctx x.single) css vs) :
    Reads s ctx x css.flatten (.list vs) := by
  have hall : ReadsAll s ctx (List.replicate css.length x.single) css.flatten vs := by
    induction h with
    | nil => exact readsAll_nil
    | cons h _ ih => exact readsAll_cons h ih
  obtain ⟨ds, hds, hvs⟩ := hall
  exact ⟨.many ds, .many hx hds, Derivation.evaluate_many_eq_ok.mpr ⟨vs, hvs, rfl⟩⟩

/-! ### Symbols one after the other -/

/-- Symbols one after the other have values one after the other. -/
theorem exists_of_derivesAll_map {α : Type} {f : α → Symbol} {as : List α} {cs : List Char}
    {ds : List Derivation} {vs : List Value} (h : DerivesAll s (as.map f) cs ds)
    (hvs : Derivation.evaluateAll s ctx ds = .ok vs) :
    ∃ es : List (α × Value), as = es.map Prod.fst ∧ vs = es.map Prod.snd ∧
      ∀ e ∈ es, ∃ cs, ∃ d ∈ ds, Derives s (f e.1) cs d ∧ d.evaluate s ctx = .ok e.2 := by
  induction as generalizing cs ds vs with
  | nil =>
    obtain ⟨_, rfl⟩ := derivesAll_nil_iff.mp h
    exact ⟨[], rfl, Derivation.evaluateAll_nil_eq_ok.mp hvs, by simp⟩
  | cons a as ih =>
    obtain ⟨cs₁, cs₂, d, ds, _, rfl, hd, hds⟩ := derivesAll_cons_iff.mp h
    obtain ⟨w, vs, hw, hrest, rfl⟩ := Derivation.evaluateAll_cons_eq_ok.mp hvs
    obtain ⟨es, has, hvalues, hall⟩ := ih hds hrest
    refine ⟨(a, w) :: es, by rw [List.map_cons, ← has], by rw [List.map_cons, ← hvalues], ?_⟩
    refine List.forall_mem_cons.mpr ⟨⟨cs₁, d, by simp, hd, hw⟩, fun e he => ?_⟩
    obtain ⟨cs, d, hd, h⟩ := hall e he
    exact ⟨cs, d, by simp [hd], h⟩

/-- A symbol several times after each other has values of its own. -/
theorem exists_of_derivesAll_replicate {x : Symbol} {n : Nat} {cs : List Char}
    {ds : List Derivation} {vs : List Value} (h : DerivesAll s (List.replicate n x) cs ds)
    (hvs : Derivation.evaluateAll s ctx ds = .ok vs) {v : Value} (hv : v ∈ vs) :
    ∃ cs, ∃ d ∈ ds, Derives s x cs d ∧ d.evaluate s ctx = .ok v := by
  have hmap : DerivesAll s ((List.replicate n ()).map fun _ => x) cs ds := by simpa using h
  obtain ⟨es, _, rfl, hall⟩ := exists_of_derivesAll_map hmap hvs
  obtain ⟨e, he, rfl⟩ := List.mem_map.mp hv
  exact hall e he

/-- Texts one after the other are read by symbols one after the other. -/
theorem readsAll_map {α : Type} {f : α → Symbol} {text : α → List Char} {value : α → Value}
    {es : List α} (h : ∀ e ∈ es, Reads s ctx (f e) (text e) (value e)) :
    ReadsAll s ctx (es.map f) (es.flatMap text) (es.map value) := by
  induction es with
  | nil => exact readsAll_nil
  | cons e es ih =>
    exact readsAll_cons (h e (by simp)) (ih fun e he => h e (List.mem_cons_of_mem _ he))

end

end Covenant
