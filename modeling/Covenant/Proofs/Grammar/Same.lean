import Covenant.Grammar.Reading
import Covenant.Proofs.Grammar.Actions
import Covenant.Proofs.Grammar.Trees
import Covenant.Proofs.Source.Steady

/-!
Rule sets that differ in comments and origins.

* `RuleSet.Same.derives`: they derive the same.
* `RuleSet.Same.evaluate`: derivations have the same values by them.
* `RuleSet.Same.cfg`: texts are read by the same grammar.
* `RuleSet.Same.usable`: they are usable both or not at all.
-/

namespace Covenant

namespace RuleSet

variable {s t : RuleSet}

theorem Same.symm (h : s.Same t) : t.Same s :=
  ⟨h.start.symm, h.expressions.symm, h.rules.symm⟩

/-! ### Rules -/

section

variable {β : Type} {f : Rule → β}

/-- What depends on the names, the alternatives and the actions of rules only, is the same. -/
theorem Same.map_rules (h : s.Same t)
    (hf : ∀ r : Rule, f r = f { name := r.name, alternatives := r.alternatives, action := r.action }) :
    s.rules.map f = t.rules.map f := by
  have hmap : ∀ u : RuleSet, u.rules.map f
      = (u.rules.map fun r => (r.name, r.alternatives, r.action)).map fun x =>
        f { name := x.1, alternatives := x.2.1, action := x.2.2 } := fun u => by
    rw [List.map_map]
    exact List.map_congr_left fun r _ => hf r
  rw [hmap, hmap, h.rules]

/-- So it is for the rules of one name. -/
theorem Same.map_find (h : s.Same t)
    (hf : ∀ r : Rule, f r = f { name := r.name, alternatives := r.alternatives, action := r.action })
    (name : String) : (s.find? name).map f = (t.find? name).map f := by
  have hfind : ∀ u : RuleSet, (u.find? name).map f
      = ((u.rules.map fun r => (r.name, f r)).find? fun x => x.1 == name).map Prod.snd := by
    intro u
    rw [find?, List.find?_map, Option.map_map]
    rfl
  rw [hfind, hfind, h.map_rules fun r => Prod.ext rfl (hf r)]

end

theorem Same.exists_find (h : s.Same t) {name : String} {r : Rule} (hr : s.find? name = some r) :
    ∃ w, t.find? name = some w ∧ w.alternatives = r.alternatives ∧ w.action = r.action := by
  have hfind := h.map_find (f := fun r => (r.alternatives, r.action)) (fun _ => rfl) name
  rw [hr, Option.map_some] at hfind
  obtain ⟨w, hw, heq⟩ := Option.map_eq_some_iff.mp hfind.symm
  exact ⟨w, hw, Prod.mk.inj heq⟩

/-! ### Derivations -/

mutual

/-- **What a rule set derives**, another one that differs in comments and origins does. -/
theorem Same.derives (h : s.Same t) {x : Symbol} {cs : List Char} {d : Derivation} :
    Derives s x cs d → Derives t x cs d
  | .token hkind hone haccepts => .token hkind hone haccepts
  | .absent hoptional => .absent hoptional
  | .present hoptional hd => .present hoptional (h.derives hd)
  | .many hmany hds => .many hmany (h.derivesAll hds)
  | .rule hkind hone hfind hq hds => by
    obtain ⟨w, hw, halternatives, -⟩ := h.exists_find hfind
    exact .rule hkind hone hw (halternatives ▸ hq) (h.derivesAll hds)

theorem Same.derivesAll (h : s.Same t) {xs : List Symbol} {cs : List Char} {ds : List Derivation} :
    DerivesAll s xs cs ds → DerivesAll t xs cs ds
  | .nil => .nil
  | .cons hd hds => .cons (h.derives hd) (h.derivesAll hds)

end

/-! ### Values -/

theorem Same.get (h : s.Same t) (name : String) : (∃ r w, s.get name = .ok r ∧ t.get name = .ok w ∧
      w.alternatives = r.alternatives ∧ w.action = r.action) ∨ s.get name = t.get name := by
  unfold RuleSet.get
  cases hs : s.find? name with
  | some r =>
    obtain ⟨w, hw, hsame⟩ := h.exists_find hs
    rw [hw]
    exact .inl ⟨r, w, rfl, rfl, hsame⟩
  | none =>
    cases ht : t.find? name with
    | none => exact .inr rfl
    | some w =>
      obtain ⟨r, hr, -⟩ := h.symm.exists_find ht
      cases hs.symm.trans hr

mutual

/-- **The value of a derivation** does not depend on comments and origins. -/
theorem Same.evaluate (h : s.Same t) (ctx : ReadingContext) :
    ∀ d : Derivation, d.evaluate s ctx = d.evaluate t ctx
  | .token _ => rfl
  | .absent => rfl
  | .many ds => by
    rw [Derivation.evaluate, Derivation.evaluate, h.evaluateAll ctx ds]
  | .node name q ds => by
    rw [Derivation.evaluate, Derivation.evaluate, h.evaluateAll ctx ds]
    rcases h.get name with ⟨r, w, hr, hw, halternatives, haction⟩ | hsame
    · simp only [hr, hw, bind, Except.bind, halternatives, Rule.apply_congr haction]
    · rw [hsame]

theorem Same.evaluateAll (h : s.Same t) (ctx : ReadingContext) :
    ∀ ds : List Derivation, Derivation.evaluateAll s ctx ds = Derivation.evaluateAll t ctx ds
  | [] => rfl
  | d :: ds => by
    rw [Derivation.evaluateAll, Derivation.evaluateAll, h.evaluate ctx d, h.evaluateAll ctx ds]

end

/-! ### Grammars -/

theorem Same.goals (h : s.Same t) : s.goals = t.goals := by
  unfold RuleSet.goals
  rw [List.flatMap, List.flatMap, h.map_rules fun _ => rfl, h.map_rules fun _ => rfl]

theorem Same.productions (h : s.Same t) (a : Goal) :
    a.productions s.find? = a.productions t.find? := by
  cases a with
  | rule name =>
    have hproductions : ∀ u : RuleSet, (Goal.rule name).productions u.find? =
        ((u.find? name).map fun r => r.alternatives.map (·.map Symbol.part)).getD [] := by
      intro u
      rw [Goal.productions]
      cases u.find? name <;> rfl
    rw [hproductions, hproductions, h.map_find fun _ => rfl]
  | optional | many => rfl

/-- **The grammar by which texts are read** does not depend on comments and origins. -/
theorem Same.cfg (h : s.Same t) : s.cfg = t.cfg := by
  unfold RuleSet.cfg
  simp only [h.goals, h.productions]

/-! ### Usable rules -/

theorem Same.reachable (h : s.Same t) : s.reachable = t.reachable := by
  have hreach : ∀ fuel seen pending, s.reach fuel seen pending = t.reach fuel seen pending := by
    intro fuel
    induction fuel with
    | zero => exact fun _ _ => rfl
    | succ fuel ih =>
      intro seen pending
      cases pending with
      | nil => rfl
      | cons name pending =>
        unfold reach
        rw [ih, ih, h.map_find fun _ => rfl]
  have hsteps : ∀ u : RuleSet, (u.rules.foldr (fun r n => r.references.length + 1 + n) 1)
      = (u.rules.map Rule.references).foldr (fun xs n => xs.length + 1 + n) 1 := fun u => by
    rw [List.foldr_map]
  unfold RuleSet.reachable
  simp only
  rw [hsteps, hsteps, h.map_rules fun _ => rfl, hreach, h.start]

/-- **Whether texts can be read** does not depend on comments and origins. -/
theorem Same.usable (h : s.Same t) : s.usable = t.usable := by
  have hall : ∀ (u : RuleSet) (f : Rule → Bool), u.rules.all f = (u.rules.map f).all id :=
    fun u f => by rw [List.all_map]; rfl
  unfold RuleSet.usable
  simp only
  rw [h.reachable, hall, hall, h.map_rules fun _ => rfl]

end RuleSet

end Covenant
