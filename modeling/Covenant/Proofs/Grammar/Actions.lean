import Covenant.Proofs.Grammar.Derives

/-!
What actions are given.

* `Action.exists_bind`: what a parameter of a checked rule asks for is there.
* `RuleSet.exists_args`: so the action of a rule of a complete set has its arguments.
* `Derivation.evaluate_node`: a node whose parts have values has the value that its rule gives
  it.
* `Derivation.exists_of_within`: whatever a derivation with a value is made of has a value.
-/

namespace Covenant

/-! ### Parameters -/

/-- **What a parameter of a checked rule asks for is there**, in each of its alternatives. -/
theorem Action.exists_bind {r : Rule} {source : ParamSource}
    (h : RuleSet.sourceFault? r source = none) {alternative : List Symbol}
    (halternative : alternative ∈ r.alternatives) {vs : List Value}
    (hlength : vs.length = alternative.length) :
    ∃ v, Action.bind alternative vs source = .ok v := by
  cases source with
  | const text => exact ⟨_, rfl⟩
  | ref target =>
    obtain ⟨i, hi⟩ : ∃ i, alternative.findIdx? (·.refersTo target) = some i := by
      rw [← Option.isSome_iff_exists, List.findIdx?_isSome]
      exact RuleSet.refersTo_of_sourceFault h halternative
    have hlt : i < vs.length := by
      rw [hlength]
      exact (List.findIdx?_eq_some_iff_findIdx_eq.mp hi).1
    refine ⟨vs[i], ?_⟩
    rw [Action.bind, hi, Option.bind_some, List.getElem?_eq_getElem hlt]
    rfl
  | index position =>
    have hrange := RuleSet.lt_of_sourceFault h halternative
    have hlt : position.toNat < vs.length := by omega
    refine ⟨vs[position.toNat], ?_⟩
    rw [Action.bind, if_neg (by omega), List.getElem?_eq_getElem hlt]
    rfl

/-- The action of a rule of a complete set asks for nothing that is not there. -/
theorem RuleSet.sourceFault_of_check {s : RuleSet} (hcheck : s.check = .ok ()) {r : Rule}
    (hr : r ∈ s.rules) {a : Action} (ha : r.action = some a) :
    ∀ p ∈ a.params, sourceFault? r p.source = none := by
  have hrule := ruleFault_of_fault (check_eq_ok_iff.mp hcheck) hr
  exact (ruleFault_eq_none_iff.mp hrule).2 a ha

/-- The arguments of the action of a rule of a complete set. -/
theorem RuleSet.exists_args {s : RuleSet} (hcheck : s.check = .ok ()) {r : Rule} (hr : r ∈ s.rules)
    {a : Action} (ha : r.action = some a) {alternative : List Symbol}
    (halternative : alternative ∈ r.alternatives) {vs : List Value}
    (hlength : vs.length = alternative.length) (ctx : ReadingContext) :
    ∃ args, r.apply ctx alternative vs = Action.run a.name vs (Table.ofList args) ctx := by
  have hparams := sourceFault_of_check hcheck hr ha
  have hargs : ∃ args, a.params.mapM (fun p =>
      (Action.bind alternative vs p.source).map (p.key, ·)) = .ok args := by
    cases hmap : a.params.mapM fun p => (Action.bind alternative vs p.source).map (p.key, ·) with
    | ok args => exact ⟨args, rfl⟩
    | error e =>
      obtain ⟨p, hp, herror⟩ := Outcome.exists_of_mapM_error hmap
      obtain ⟨v, hv⟩ := Action.exists_bind (hparams p hp) halternative hlength
      cases hv.symm.trans (Outcome.map_eq_error.mp herror)
  obtain ⟨args, hargs⟩ := hargs
  refine ⟨args, ?_⟩
  rw [Rule.apply, ha]
  simp only [hargs]
  rfl

theorem Rule.apply_congr {r w : Rule} (h : r.action = w.action) (ctx : ReadingContext)
    (alternative : List Symbol) (vs : List Value) :
    r.apply ctx alternative vs = w.apply ctx alternative vs := by
  rw [Rule.apply, Rule.apply, h]

/-- An action without parameters. -/
theorem Rule.apply_plain {r : Rule} {name : String} (h : r.action = some ⟨name, []⟩)
    (ctx : ReadingContext) (alternative : List Symbol) (vs : List Value) :
    r.apply ctx alternative vs = Action.run name vs (Table.ofList []) ctx := by
  rw [Rule.apply, h]
  rfl

/-! ### Parts that are tokens -/

namespace Derivation

variable {s : RuleSet} {ctx : ReadingContext}

theorem evaluateAll_tokens (texts : List String) :
    evaluateAll s ctx (texts.map .token) = .ok (texts.map .text) := by
  induction texts with
  | nil => rfl
  | cons t texts ih =>
    rw [List.map_cons, evaluateAll, ih]
    rfl

theorem flatAll_texts (texts : List String) :
    Value.flatAll (texts.map .text) = String.join texts := by
  induction texts with
  | nil => rfl
  | cons t texts ih =>
    rw [List.map_cons, Value.flatAll, ih, String.join_cons]
    rfl

theorem length_evaluateAll {ds : List Derivation} {vs : List Value}
    (h : evaluateAll s ctx ds = .ok vs) : vs.length = ds.length := by
  induction ds generalizing vs with
  | nil => rw [evaluateAll_nil_eq_ok.mp h, List.length_nil, List.length_nil]
  | cons d ds ih =>
    obtain ⟨v, rest, -, hrest, rfl⟩ := evaluateAll_cons_eq_ok.mp h
    rw [List.length_cons, List.length_cons, ih hrest]

/-- A node whose parts have values has the value that its rule gives it. -/
theorem evaluate_node {name : String} {q : Nat} {ds : List Derivation} {vs : List Value} {r : Rule}
    (hfind : s.find? name = some r) (hvs : evaluateAll s ctx ds = .ok vs) :
    (node name q ds).evaluate s ctx = r.apply ctx (r.alternatives.getD q []) vs := by
  rw [evaluate, hvs]
  simp only [bind, Except.bind, RuleSet.get, hfind]

theorem evaluateAll_token (t : String) : evaluateAll s ctx [.token t] = .ok [.text t] := rfl

/-! ### Parts of what has a value -/

mutual

/-- **All that a derivation with a value is made of has a value.** -/
theorem exists_of_within {d : Derivation} {v : Value} (h : d.evaluate s ctx = .ok v) :
    ∀ e ∈ d.within, ∃ w, e.evaluate s ctx = .ok w := by
  rw [within_eq]
  refine List.forall_mem_cons.mpr ⟨⟨v, h⟩, ?_⟩
  cases d with
  | token t => simp [inside]
  | absent => simp [inside]
  | node name q ds =>
    obtain ⟨vs, r, hvs, -⟩ := evaluate_node_eq_ok.mp h
    exact exists_of_withinAll hvs
  | many ds =>
    obtain ⟨vs, hvs, -⟩ := evaluate_many_eq_ok.mp h
    exact exists_of_withinAll hvs

theorem exists_of_withinAll {ds : List Derivation} {vs : List Value}
    (h : evaluateAll s ctx ds = .ok vs) : ∀ e ∈ withinAll ds, ∃ w, e.evaluate s ctx = .ok w := by
  cases ds with
  | nil => simp [withinAll]
  | cons d ds =>
    obtain ⟨v, vs, hv, hvs, -⟩ := evaluateAll_cons_eq_ok.mp h
    exact List.forall_mem_append.mpr ⟨exists_of_within hv, exists_of_withinAll hvs⟩

end

end Derivation

end Covenant
