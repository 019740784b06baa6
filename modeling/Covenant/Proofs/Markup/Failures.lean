import Covenant.Proofs.Format.Readings
import Covenant.Proofs.Grammar.Actions
import Covenant.Proofs.Markup.Evaluation
import Covenant.Proofs.Markup.Forms

/-!
Texts that templates match and do not read.

* `Derivation.Misread`: the parts of a derivation whose text a rule matches and its action cannot
  turn into a value.
* `Derives.answered`: a derivation has a value, or tells that its text cannot be read, or fails as
  such a part does.
-/

namespace Covenant

/-! ### Parts whose texts are misread -/

namespace Derivation

/-- **A part of a derivation whose text its rule matches and its action cannot turn into a
value**: a text between quotes that is no JSON string, a whole number with too many digits, or a
text in a format that misreads it. -/
inductive Misread (s : RuleSet) (ctx : ReadingContext) : Derivation → Prop where
  | string {name : String} {q : Nat} {r : Rule} {body : List Char} (hfind : s.find? name = some r)
      (haction : r.action = some ⟨"string", []⟩) (hquoted : JsonText.IsQuoted body)
      (h : ¬ JsonText.IsBody body) :
      Misread s ctx (.node name q [.token (String.ofList ('"' :: (body ++ ['"'])))])
  | integer {name : String} {q : Nat} {r : Rule} {sign ds : List Char}
      (hfind : s.find? name = some r) (haction : r.action = some ⟨"integer", []⟩)
      (hsign : Decimal.IsSign sign) (hdigits : Decimal.IsDigits ds)
      (h : Decimal.maxDigits < ds.length) :
      Misread s ctx (.node name q [.token (String.ofList (sign ++ ds))])
  | format {name : String} {q : Nat} {r : Rule} {k : Formatted} {format : String} {w : Rule}
      {texts : List String} (hfind : s.find? name = some r) (hw : k.rule format = .ok w)
      (haction : r.action = w.action) (h : k.Misread (String.join texts) format ctx) :
      Misread s ctx (.node name q (texts.map .token))

variable {s : RuleSet} {ctx : ReadingContext}

/-- **What a misread part comes to**: neither a value nor a refusal. -/
theorem Misread.evaluate {d : Derivation} (h : d.Misread s ctx) :
    ∃ f, d.evaluate s ctx = .error f ∧ f.cause ≠ .ambiguous ∧ ∀ r, f.cause ≠ .reading r := by
  cases h with
  | @string name q r body hfind haction hquoted h =>
    rw [evaluate_node hfind (evaluateAll_token _), Rule.apply_plain haction]
    obtain ⟨hbody, -⟩ | ⟨-, f, hread, hissue⟩ := Json.read_quoted hquoted
    · exact absurd hbody h
    · refine ⟨{ cause := .json f }, ?_, by simp, by simp⟩
      change Action.readJson (.text _) = _
      rw [Action.readJson, hread]
      simp only [if_neg hissue]
      rfl
  | @integer name q r sign ds hfind haction hsign hdigits h =>
    rw [evaluate_node hfind (evaluateAll_token _), Rule.apply_plain haction]
    refine ⟨{ cause := .undefined }, ?_, by simp, by simp⟩
    change (Outcome.ofOption (Decimal.readInt? _)).map Value.int = _
    rw [(Decimal.readInt_eq_none_iff hsign hdigits).mpr h]
    rfl
  | @format name q r k format w texts hfind hw haction h =>
    rw [evaluate_node hfind (evaluateAll_tokens texts), Rule.apply_congr haction,
      Formatted.apply_rule hw, flatAll_texts]
    refine ⟨{ cause := .undefined }, ?_, by simp, by simp⟩
    obtain ⟨hnot, -⟩ | ⟨-, hread⟩ := Formatted.read_cases hw (String.join texts) ctx
    · exact absurd h hnot
    · exact hread

/-! ### Nodes by the form of their rules -/

theorem run_total {name : String} (h : name ∈ totalActions) (vs : List Value) (args : Table Value)
    (ctx : ReadingContext) : ∃ v, Action.run name vs args ctx = .ok v := by
  simp only [totalActions, List.mem_cons, List.not_mem_nil, or_false] at h
  rcases h with rfl | rfl | rfl | rfl | rfl | rfl <;> exact ⟨_, rfl⟩

section Node

variable {name : String} {q : Nat} {r : Rule} {alternative : List Symbol} {cs : List Char}
  {ds : List Derivation} {vs : List Value} (hfind : s.find? name = some r)
  (hq : r.alternatives[q]? = some alternative) (hds : DerivesAll s alternative cs ds)
  (hvs : evaluateAll s ctx ds = .ok vs)

include hfind hq hds hvs

/-- A text of a primitive type. -/
theorem answered_primitive {t : Primitive} {regex action : String}
    (ht : t.pattern? = some (regex, action)) (halternatives : r.alternatives = [[.pattern regex]])
    (haction : r.action = some ⟨action, []⟩) :
    (r.apply ctx alternative vs).Answered ∨ (node name q ds).Misread s ctx := by
  obtain rfl := eq_of_alternatives halternatives hq
  obtain ⟨haccepts, rfl⟩ := (derivesAll_token_iff (by simp [Symbol.pattern]) rfl).mp hds
  obtain rfl : [.text (String.ofList cs)] = vs := Except.ok.inj hvs
  have hadmits := Symbol.admits_of_accepts haccepts
  rw [Rule.apply_plain haction]
  cases t with
  | string =>
    cases ht
    obtain ⟨body, hquoted, rfl⟩ := Pattern.quoted_of_admits hadmits
    obtain ⟨-, text, hread⟩ | ⟨hbody, -⟩ := Json.read_quoted hquoted
    · refine .inl (.inl ⟨.text text, ?_⟩)
      change Action.readJson (.text _) = _
      rw [Action.readJson, hread]
    · exact .inr (.string hfind haction hquoted hbody)
  | integer | long =>
    cases ht
    obtain ⟨sign, digits, hsign, hdigits, rfl⟩ := Pattern.integer_of_admits hadmits
    by_cases hlong : Decimal.maxDigits < digits.length
    · exact .inr (.integer hfind haction hsign hdigits hlong)
    · refine .inl (.inl ?_)
      change ∃ v, (Outcome.ofOption (Decimal.readInt? (String.ofList (sign ++ digits)))).map
        Value.int = .ok v
      cases hread : Decimal.readInt? (String.ofList (sign ++ digits)) with
      | none => exact absurd ((Decimal.readInt_eq_none_iff hsign hdigits).mp hread) hlong
      | some n => exact ⟨_, rfl⟩
  | double =>
    cases ht
    obtain ⟨x, hx⟩ := Decimal.exists_of_isNumeral (Pattern.isNumeral_of_admits hadmits)
    refine .inl (.inl ⟨.double x, ?_⟩)
    change (Outcome.ofOption (Decimal.readFloat? (String.ofList cs))).map Value.double = _
    rw [hx]
    rfl
  | boolean =>
    cases ht
    exact .inl (.inl ⟨_, rfl⟩)
  | dateTime => cases ht

/-- A text in a format. -/
theorem answered_format {k : Formatted} {format : String} {w : Rule} (hw : k.rule format = .ok w)
    (halternatives : r.alternatives = w.alternatives) (haction : r.action = w.action) :
    (r.apply ctx alternative vs).Answered ∨ (node name q ds).Misread s ctx := by
  obtain ⟨symbols, hsymbols, htokens⟩ := Formatted.tokens_of_rule hw
  obtain rfl := eq_of_alternatives (halternatives.trans hsymbols) hq
  obtain ⟨pieces, -, -, hds⟩ := (derivesAll_tokens_iff htokens).mp hds
  generalize pieces.map String.ofList = texts at hds
  subst hds
  obtain rfl : texts.map .text = vs := Except.ok.inj ((evaluateAll_tokens texts).symm.trans hvs)
  rw [Rule.apply_congr haction, Formatted.apply_rule hw, flatAll_texts]
  obtain ⟨-, hread⟩ | ⟨hmisread, -⟩ := Formatted.read_cases hw (String.join texts) ctx
  · exact .inl hread
  · exact .inr (.format hfind hw haction hmisread)

omit hfind in
/-- The first item of a list, and the others. -/
theorem apply_concat {first rest : String} (hne : first ≠ rest)
    (halternatives : r.alternatives = [[.rule first, .rule rest .many]])
    (haction : r.action = some ⟨"concat", [⟨"first", .ref first⟩, ⟨"rest", .ref rest⟩]⟩) :
    ∃ v, r.apply ctx alternative vs = .ok v := by
  obtain rfl := eq_of_alternatives halternatives hq
  obtain ⟨cs₁, cs₂, d, ds, rfl, rfl, hd, hrest⟩ := derivesAll_cons_iff.mp hds
  obtain ⟨e, rfl, he⟩ := derivesAll_singleton_iff.mp hrest
  obtain ⟨n, ds, hitems, rfl⟩ := (derives_many_iff rfl).mp he
  obtain ⟨w, vs, hw, hlist, rfl⟩ := evaluateAll_cons_eq_ok.mp hvs
  obtain ⟨_, hmany, rfl⟩ := evaluateAll_singleton_eq_ok.mp hlist
  obtain ⟨ws, hws, rfl⟩ := evaluate_many_eq_ok.mp hmany
  have hitems : r.action = (Markup.itemsRule "" first rest "").action := haction
  rw [Rule.apply_congr hitems]
  exact ⟨_, Markup.apply_itemsRule hne w ws⟩

/-- **A node whose parts have values** has a value, or tells that its text cannot be read, or is
misread. -/
theorem answered_node (hcheck : s.check = .ok ()) (hr : r ∈ s.rules) (hform : r.Form) :
    ((node name q ds).evaluate s ctx).Answered ∨ (node name q ds).Misread s ctx := by
  rw [evaluate_node hfind hvs, List.getD_eq_getElem?_getD, hq, Option.getD_some]
  cases hform with
  | passes h => exact .inl (.inl ⟨Action.pass vs, by rw [Rule.apply, h]⟩)
  | @total a h htotal =>
    obtain ⟨args, happly⟩ := RuleSet.exists_args hcheck hr h (List.mem_of_getElem? hq)
      ((length_evaluateAll hvs).trans hds.length) ctx
    obtain ⟨v, hv⟩ := run_total htotal vs (Table.ofList args) ctx
    exact .inl (.inl ⟨v, happly.trans hv⟩)
  | equals h => exact .inl (.inl ⟨_, by rw [Rule.apply, h]; rfl⟩)
  | concat hne halternatives h => exact .inl (.inl (apply_concat hq hds hvs hne halternatives h))
  | primitive ht halternatives h => exact answered_primitive hfind hq hds hvs ht halternatives h
  | format hw halternatives h => exact answered_format hfind hq hds hvs hw halternatives h

end Node

end Derivation

/-! ### Whole derivations -/

section

variable {s : RuleSet} {ctx : ReadingContext}

mutual

/-- **A derivation** has a value, or tells that its text cannot be read, or comes to what a misread
part of it comes to. -/
theorem Derives.answered (hcheck : s.check = .ok ()) (hforms : ∀ r ∈ s.rules, r.Form) {x : Symbol}
    {cs : List Char} {d : Derivation} (h : Derives s x cs d) : (d.evaluate s ctx).Answered ∨
      ∃ e ∈ d.within, e.Misread s ctx ∧ d.evaluate s ctx = e.evaluate s ctx :=
  match h with
  | .token _ _ _ => .inl (.inl ⟨_, rfl⟩)
  | @Derives.rule _ x cs r q alternative ds _ _ hfind hq hds => by
    have hr : r ∈ s.rules := List.mem_of_find?_eq_some hfind
    obtain (⟨vs, hvs⟩ | ⟨c, hc⟩) | ⟨e, he, hmisread, f, hf, hfault⟩ :=
      DerivesAll.answered hcheck hforms hds
    · refine (Derivation.answered_node hfind hq hds hvs hcheck hr (hforms r hr)).imp_right fun h => ?_
      exact ⟨_, Derivation.self_mem_within _, h, rfl⟩
    · refine .inl (.inr ⟨c, ?_⟩)
      rw [Derivation.evaluate, hc]
      rfl
    · refine .inr ⟨e, ?_, hmisread, ?_⟩
      · rw [Derivation.within]
        exact List.mem_cons_of_mem _ he
      · rw [Derivation.evaluate, hfault, hf]
        rfl
  | .absent _ => .inl (.inl ⟨_, rfl⟩)
  | .present _ h => Derives.answered hcheck hforms h
  | @Derives.many _ x n cs ds _ hds => by
    rw [Derivation.evaluate, Derivation.within]
    refine (DerivesAll.answered hcheck hforms hds).imp (fun h => h.map _) fun h => ?_
    obtain ⟨e, he, hmisread, f, hf, hfault⟩ := h
    refine ⟨e, List.mem_cons_of_mem _ he, hmisread, ?_⟩
    rw [hfault, hf]
    rfl

/-- Derivations one after the other have values, or one of them tells that its text cannot be
read, or they fail as a misread part of them does. -/
theorem DerivesAll.answered (hcheck : s.check = .ok ()) (hforms : ∀ r ∈ s.rules, r.Form)
    {xs : List Symbol} {cs : List Char} {ds : List Derivation} (h : DerivesAll s xs cs ds) :
    (Derivation.evaluateAll s ctx ds).Answered ∨ ∃ e ∈ Derivation.withinAll ds, e.Misread s ctx ∧
      ∃ f, e.evaluate s ctx = .error f ∧ Derivation.evaluateAll s ctx ds = .error f :=
  match h with
  | .nil => .inl (.inl ⟨_, rfl⟩)
  | @DerivesAll.cons _ x xs cs cs' d ds hd hrest => by
    rw [Derivation.evaluateAll, Derivation.withinAll]
    obtain (⟨v, hv⟩ | ⟨c, hc⟩) | ⟨e, he, hmisread, hsame⟩ := Derives.answered hcheck hforms hd
    · obtain (⟨vs, hvs⟩ | ⟨c, hc⟩) | ⟨e, he, hmisread, f, hf, hfault⟩ :=
        DerivesAll.answered hcheck hforms hrest
      · exact .inl (.inl ⟨v :: vs, by rw [hv, hvs]; rfl⟩)
      · exact .inl (.inr ⟨c, by rw [hv, hc]; rfl⟩)
      · exact .inr ⟨e, List.mem_append_right _ he, hmisread, f, hf, by rw [hv, hfault]; rfl⟩
    · exact .inl (.inr ⟨c, by rw [hc]; rfl⟩)
    · obtain ⟨f, hf, -⟩ := hmisread.evaluate
      exact .inr ⟨e, List.mem_append_left _ he, hmisread, f, hf, by rw [hsame, hf]; rfl⟩

end

end

end Covenant
