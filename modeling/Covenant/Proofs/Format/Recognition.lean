import Covenant.Format.Monetary
import Covenant.Proofs.Format.Preference
import Covenant.Proofs.Grammar.Actions

/-!
The texts of formats.

* `Rule.Matches`: a text that is put together from matches of the symbols of a rule.
* `Formatted.mismatch`: the fault that a text does not match a format.
* `DateFormat.assembled`, `AmountFormat.assembled`, `MonetaryFormat.assembled`: the regular
  expression of a format is put together from the symbols of its rule.
* `Formatted.recognizers_agree`: the rule of a format, its regular expression and its reader take
  the same texts.
-/

namespace Covenant

open Pattern (Assembled Spells)

/-- **A text that is put together from matches** of the symbols of an alternative, in their
order. -/
def Rule.Matches (r : Rule) (text : List Char) : Prop :=
  ∃ symbols ∈ r.alternatives, ∃ pieces,
    List.Forall₂ Symbol.Accepts symbols pieces ∧ pieces.flatten = text

/-- A symbol that takes every text that its pattern matches as a whole. -/
def Symbol.Thorough (x : Symbol) : Prop :=
  ∀ cs, x.toPattern.Admits cs → x.Accepts cs

theorem Symbol.thorough_literal (cs : List Char) : (Symbol.literal (String.ofList cs)).Thorough :=
  fun _ h => Pattern.match_of_hasWidth (hasWidth_literal cs) h

theorem CurrencyStyle.ofString_regex (style : CurrencyStyle) :
    Pattern.ofString? style.regex = some (Symbol.pattern style.regex).toPattern := by
  cases style <;> decide +kernel

theorem CurrencyStyle.thorough (style : CurrencyStyle) : (Symbol.pattern style.regex).Thorough :=
  fun _ h => Pattern.match_of_hasWidth style.hasWidth h

section

variable {xs : List Symbol} {cs : List Char}

theorem toList_escapedText (ts : List Char) : (escapedText ts).toList = ts.flatMap escapeRegex :=
  String.toList_ofList

theorem toList_bracketed (regex : String) :
    (bracketed regex).toList = '(' :: (regex.toList ++ [')']) := by
  rw [bracketed, String.toList_append, String.toList_append]
  rfl

/-- An escaped text in front of an expression, with its symbol unless it is empty. -/
theorem assembled_affix (ts : List Char) (h : Assembled cs xs) :
    Assembled ((escapedText ts).toList ++ cs) (AmountFormat.affix ts ++ xs) := by
  rw [toList_escapedText]
  cases ts with
  | nil => exact h
  | cons c ts => exact .literal (c :: ts) h

/-- A regular expression in brackets in front of an expression. -/
theorem assembled_bracketed {regex : String}
    (hregex : Pattern.ofString? regex = some (Symbol.pattern regex).toPattern)
    (h : Assembled cs xs) : Assembled ((bracketed regex).toList ++ cs) (.pattern regex :: xs) := by
  rw [toList_bracketed, List.cons_append, List.append_assoc]
  exact .pattern hregex rfl h

end

/-! ### Dates -/

theorem DateField.ofString_regex (f : DateField) :
    Pattern.ofString? f.regex = some (Symbol.pattern f.regex).toPattern := by
  cases f <;> decide +kernel

theorem DateFormat.assembled (f : DateFormat) : Assembled f.expression.toList f.symbols := by
  rw [expression, symbols, String.toList_join]
  induction f.tokens with
  | nil => exact .nil
  | cons t ts ih =>
    rw [List.map_cons, List.map_cons, List.flatMap_cons]
    cases t with
    | field field =>
      exact assembled_bracketed field.ofString_regex ih
    | literal cs =>
      rw [DateToken.expression, toList_escapedText]
      exact .literal cs ih

theorem DateFormat.thorough (f : DateFormat) : ∀ x ∈ f.symbols, x.Thorough := by
  intro x hx
  obtain ⟨t, -, rfl⟩ := List.mem_map.mp hx
  cases t with
  | field field => exact fun cs h => DateField.accepts_of_admits h
  | literal cs => exact Symbol.thorough_literal cs

/-! ### Amounts -/

theorem AmountFormat.regex_number (f : AmountFormat) :
    Pattern.ofString? f.regex = some (Symbol.pattern f.regex).toPattern :=
  (ofString_regex f).trans (congrArg some (toPattern_number f).symm)

theorem AmountFormat.assembled (f : AmountFormat) : Assembled f.expression.toList f.symbols := by
  have hafter := assembled_affix f.after .nil
  have hnumber := assembled_bracketed (regex_number f) hafter
  have hbefore := assembled_affix f.before hnumber
  rw [List.append_nil, List.append_nil] at hbefore
  rw [expression, symbols, String.toList_append, String.toList_append, List.append_assoc,
    List.append_assoc]
  exact hbefore

theorem AmountFormat.thorough_affix (cs : List Char) : ∀ x ∈ affix cs, x.Thorough := by
  intro x hx
  unfold affix at hx
  split at hx
  · cases hx
  · rw [List.mem_singleton.mp hx]
    exact Symbol.thorough_literal cs

theorem AmountFormat.thorough {f : AmountFormat} (hf : f.Separated) : ∀ x ∈ f.symbols, x.Thorough :=
  List.forall_mem_append.mpr ⟨List.forall_mem_append.mpr ⟨thorough_affix _,
    List.forall_mem_singleton.mpr fun _ h => accepts_of_admits hf h⟩, thorough_affix _⟩

/-! ### Amounts of money -/

namespace MonetaryFormat

variable {f : MonetaryFormat} {xs : List Symbol} {cs : List Char}

theorem map_symbol_pieces (f : MonetaryFormat)
    (parts : List (List Char × CurrencyStyle) × List Char) :
    (pieces parts).map f.symbol = (parts.1.flatMap fun p =>
      AmountFormat.affix p.1 ++ [.pattern f.style.regex]) ++ AmountFormat.affix parts.2 := by
  have hliteral : ∀ cs : List Char, (if cs.isEmpty then [] else [Piece.literal cs]).map f.symbol =
      AmountFormat.affix cs := by
    intro cs
    unfold AmountFormat.affix
    split <;> rfl
  unfold pieces
  simp only [List.map_append, List.map_flatMap, hliteral]
  rfl

theorem assembled_pieces (parts : List (List Char × CurrencyStyle) × List Char)
    (h : Assembled cs xs) :
    Assembled ((f.affixExpression parts).toList ++ cs) ((pieces parts).map f.symbol ++ xs) := by
  obtain ⟨ps, last⟩ := parts
  rw [map_symbol_pieces, affixExpression, String.toList_intercalate]
  induction ps with
  | nil =>
    have hlast := assembled_affix last h
    simpa using hlast
  | cons p ps ih =>
    have hcurrency := assembled_bracketed f.style.ofString_regex ih
    have hpiece := assembled_affix p.1 hcurrency
    have hne : ps.map Prod.fst ++ [last] ≠ [] := List.concat_ne_nil last _
    obtain ⟨q, qs, hqs⟩ := List.exists_cons_of_ne_nil hne
    rw [hqs] at hpiece
    rw [List.map_cons, List.cons_append, hqs]
    simp only [List.map_cons, List.intercalate_cons_cons, List.flatMap_cons, List.append_assoc,
      List.singleton_append] at hpiece ⊢
    exact hpiece

theorem assembled (f : MonetaryFormat) : Assembled f.expression.toList f.symbols := by
  have hafter := assembled_pieces (f := f) f.after .nil
  have hnumber := assembled_bracketed (AmountFormat.regex_number f.amount) hafter
  have hbefore := assembled_pieces (f := f) f.before hnumber
  rw [List.append_nil, List.append_nil] at hbefore
  rw [expression, symbols, layout, String.toList_append, String.toList_append, List.append_assoc,
    List.append_assoc, List.map_append, List.map_append]
  exact hbefore

theorem thorough {format : String} (hf : ofString format = .ok f) :
    ∀ x ∈ f.symbols, x.Thorough := by
  intro x hx
  obtain ⟨p, -, rfl⟩ := List.mem_map.mp hx
  cases p with
  | literal cs => exact Symbol.thorough_literal cs
  | currency => exact f.style.thorough
  | amount =>
    have hamount := AmountFormat.separated (amount_eq hf)
    exact fun cs h => AmountFormat.accepts_of_admits hamount h

end MonetaryFormat

/-! ### Formats by type -/

namespace Formatted

/-- The fault that a text does not match a format. -/
def mismatch (k : Formatted) (text format : String) : Fault.Cause :=
  .reading (match k with
    | .date => .date text format
    | .amount => .amount text format
    | .monetary => .monetary text format)

/-- **A format by its symbols**: its regular expression is put together from them, each of them
takes every text that its pattern matches as a whole, and a text is refused where it cannot be
cut by them. -/
structure Recognizes (k : Formatted) (format : String) (symbols : List Symbol) (e : String) :
    Prop where
  expression : k.expression format = .ok e
  assembled : Assembled e.toList symbols
  thorough : ∀ x ∈ symbols, x.Thorough
  read : ∀ text ctx, k.read text format ctx = .fail (k.mismatch text format) ↔
    splitBySymbols? symbols text = none

variable {k : Formatted} {format : String} {r : Rule}

theorem read_date {f : DateFormat} (hf : DateFormat.ofString format = .ok f) (text : String)
    (ctx : ReadingContext) : date.read text format ctx = .fail (date.mismatch text format) ↔
      splitBySymbols? f.symbols text = none := by
  rw [read, DateTime.read_eq hf]
  cases splitBySymbols? f.symbols text with
  | none => exact iff_of_true rfl rfl
  | some pieces =>
    refine iff_of_false ?_ (by simp)
    rcases DateTime.settle_cases text format (DateTime.withClock (f.collect pieces) ctx.clock ctx.zone) with
      ⟨-, why, h⟩ | ⟨-, -, -, h⟩ | ⟨-, -, -, h⟩
    all_goals
      simp only [h]
      intro hmismatch
      cases hmismatch

theorem read_amount {f : AmountFormat} (hf : AmountFormat.ofString format = .ok f) (text : String)
    (ctx : ReadingContext) : amount.read text format ctx = .fail (amount.mismatch text format) ↔
      splitBySymbols? f.symbols text = none := by
  unfold read Amount.read
  rw [hf]
  simp only [bind, Except.bind]
  cases splitBySymbols? f.symbols text with
  | none => exact iff_of_true rfl rfl
  | some pieces =>
    refine iff_of_false ?_ (by simp)
    simp only
    cases f.toDouble? (pieces.getD (AmountFormat.affix f.before).length []) with
    | none =>
      intro h
      cases h
    | some x =>
      intro h
      cases h

theorem read_monetary {f : MonetaryFormat} (hf : MonetaryFormat.ofString format = .ok f)
    (text : String) (ctx : ReadingContext) :
    monetary.read text format ctx = .fail (monetary.mismatch text format) ↔
      splitBySymbols? f.symbols text = none := by
  unfold read Monetary.read
  rw [hf]
  simp only [bind, Except.bind]
  cases splitBySymbols? f.symbols text with
  | none => exact iff_of_true rfl rfl
  | some texts =>
    refine iff_of_false ?_ (by simp)
    simp only
    cases f.amount.toDouble? (f.pieceText .amount texts) with
    | none =>
      intro h
      cases h
    | some x =>
      intro h
      cases h

/-- A format for which there is a rule. -/
theorem recognizes_of_rule (h : k.rule format = .ok r) :
    ∃ symbols e, r.alternatives = [symbols] ∧ k.Recognizes format symbols e := by
  cases k with
  | date =>
    obtain ⟨f, hf, h⟩ := Outcome.bind_eq_ok.mp h
    cases h
    refine ⟨f.symbols, f.expression, rfl, ?_, f.assembled, f.thorough, read_date hf⟩
    rw [Formatted.expression, hf]
    rfl
  | amount =>
    obtain ⟨f, hf, h⟩ := Outcome.bind_eq_ok.mp h
    cases h
    refine ⟨f.symbols, f.expression, rfl, ?_, f.assembled,
      AmountFormat.thorough (AmountFormat.separated hf), read_amount hf⟩
    rw [Formatted.expression, hf]
    rfl
  | monetary =>
    obtain ⟨f, hf, h⟩ := Outcome.bind_eq_ok.mp h
    cases h
    refine ⟨f.symbols, f.expression, rfl, ?_, f.assembled, MonetaryFormat.thorough hf,
      read_monetary hf⟩
    rw [Formatted.expression, hf]
    rfl

/-- What a rule set derives for a format that it has the rule of: texts that the symbols take, as
tokens. -/
theorem derives_iff (h : k.rule format = .ok r) {symbols : List Symbol}
    (halternatives : r.alternatives = [symbols]) {set : RuleSet} (hfind : set.find? r.name = some r)
    {text : List Char} {d : Derivation} : Derives set (.rule r.name) text d ↔
      ∃ pieces : List (List Char), List.Forall₂ Symbol.Accepts symbols pieces ∧
        pieces.flatten = text ∧ d = .node r.name 0 ((pieces.map String.ofList).map .token) := by
  obtain ⟨symbols', halternatives', htokens⟩ := tokens_of_rule h
  obtain rfl : symbols = symbols' := by
    rw [halternatives] at halternatives'
    exact (List.cons.inj halternatives').1
  rw [derives_rule_iff]
  constructor
  · rintro ⟨w, q, alternative, ds, hw, hq, hds, rfl⟩
    obtain rfl := Option.some.inj (hfind.symm.trans hw)
    rw [halternatives] at hq
    obtain ⟨rfl, rfl⟩ : q = 0 ∧ symbols = alternative := by
      cases q with
      | zero => exact ⟨rfl, Option.some.inj hq⟩
      | succ q => cases hq
    obtain ⟨pieces, hpieces, hflatten, rfl⟩ := (derivesAll_tokens_iff htokens).mp hds
    exact ⟨pieces, hpieces, hflatten, rfl⟩
  · rintro ⟨pieces, hpieces, hflatten, rfl⟩
    refine ⟨r, 0, symbols, _, hfind, ?_, (derivesAll_tokens_iff htokens).mpr
      ⟨pieces, hpieces, hflatten, rfl⟩, rfl⟩
    rw [halternatives]
    rfl

/-- **What a derivation for a format stands for** is what the format reads. -/
theorem evaluate_of_derives (h : k.rule format = .ok r) {symbols : List Symbol}
    (halternatives : r.alternatives = [symbols]) {set : RuleSet} (hfind : set.find? r.name = some r)
    {text : String} {d : Derivation} (hd : Derives set (.rule r.name) text.toList d)
    (ctx : ReadingContext) : d.evaluate set ctx = k.read text format ctx := by
  obtain ⟨pieces, -, hflatten, rfl⟩ := (derives_iff h halternatives hfind).mp hd
  have htext : String.join (pieces.map String.ofList) = text := by
    rw [← String.toList_inj, String.toList_join, List.flatMap_map, ← hflatten]
    simp
  rw [Derivation.evaluate_node hfind (Derivation.evaluateAll_tokens _), apply_rule h,
    Derivation.flatAll_texts, htext]

/-- Texts that are matched as wholes are taken, and the other way round. -/
theorem spells_iff {symbols : List Symbol} (hthorough : ∀ x ∈ symbols, x.Thorough)
    {text : List Char} : Spells symbols text ↔
      ∃ pieces, List.Forall₂ Symbol.Accepts symbols pieces ∧ pieces.flatten = text := by
  apply exists_congr
  intro pieces
  apply and_congr_left
  intro _
  constructor
  · intro h
    have hboth := (List.forall₂_and_left symbols pieces).mpr ⟨hthorough, h⟩
    exact hboth.imp fun x cs hx => hx.1 cs hx.2
  · exact fun h => h.imp fun x cs hx => Symbol.admits_of_accepts hx

/-- **The rule of a format, its regular expression and its reader take the same texts**: a text is
put together from matches of the symbols of the rule iff the expression matches the whole of it,
iff it is not refused as a text that does not match the format. So a rule set that has the rule
derives the texts that the format does not refuse, and each of its derivations stands for what the
format reads. -/
theorem recognizers_agree (h : k.rule format = .ok r) :
    ∃ e p, k.expression format = .ok e ∧ Pattern.ofString? e = some p ∧ ∀ text : String,
      (r.Matches text.toList ↔ p.matchesAll text.toList = true) ∧
      (∀ ctx, r.Matches text.toList ↔ k.read text format ctx ≠ .fail (k.mismatch text format)) ∧
      ∀ set : RuleSet, set.find? r.name = some r →
        (r.Matches text.toList ↔ ∃ d, Derives set (.rule r.name) text.toList d) ∧
        ∀ d ctx, Derives set (.rule r.name) text.toList d →
          d.evaluate set ctx = k.read text format ctx := by
  obtain ⟨symbols, e, halternatives, hk⟩ := recognizes_of_rule h
  obtain ⟨p, hp, hspells⟩ := hk.assembled.ofChars
  have hmatches : ∀ text, r.Matches text ↔ Spells symbols text := by
    intro text
    rw [spells_iff hk.thorough, Rule.Matches, halternatives]
    simp only [List.mem_singleton, exists_eq_left]
  refine ⟨e, p, hk.expression, hp, fun text => ⟨?_, fun ctx => ?_, fun set hfind => ⟨?_, ?_⟩⟩⟩
  · rw [hmatches, Pattern.matchesAll_iff, hspells]
  · rw [hmatches, ← Pattern.split_isSome_iff, ne_eq, hk.read, splitBySymbols?,
      ← Option.ne_none_iff_isSome]
  · simp only [derives_iff h halternatives hfind, hmatches, spells_iff hk.thorough]
    constructor
    · rintro ⟨pieces, hpieces, hflatten⟩
      exact ⟨_, pieces, hpieces, hflatten, rfl⟩
    · rintro ⟨_, pieces, hpieces, hflatten, -⟩
      exact ⟨pieces, hpieces, hflatten⟩
  · exact fun d ctx hd => evaluate_of_derives h halternatives hfind hd ctx

/-- An amount with its separator in the right place is taken, and one with it in the wrong place is
refused, by the rule and by the reader. -/
theorem recognizers_agree_rent : ∃ r, Formatted.monetary.rule "0,0.00 CCC" = .ok r ∧
    r.Matches "1,234.50 USD".toList ∧ ¬ r.Matches "12,34.50 USD".toList ∧ ∀ ctx,
      Formatted.monetary.read "1,234.50 USD" "0,0.00 CCC" ctx ≠
          .fail (.reading (.monetary "1,234.50 USD" "0,0.00 CCC")) ∧
        Formatted.monetary.read "12,34.50 USD" "0,0.00 CCC" ctx =
          .fail (.reading (.monetary "12,34.50 USD" "0,0.00 CCC")) := by
  have hrule : ∃ r, Formatted.monetary.rule "0,0.00 CCC" = .ok r := ⟨_, rfl⟩
  obtain ⟨r, hr⟩ := hrule
  obtain ⟨e, p, he, hp, hall⟩ := recognizers_agree hr
  have hcheck : ((Formatted.monetary.expression "0,0.00 CCC").toOption.bind Pattern.ofString?).map
      (fun p => (p.matchesAll "1,234.50 USD".toList, p.matchesAll "12,34.50 USD".toList)) =
        some (true, false) := by
    decide +kernel
  rw [he] at hcheck
  simp only [Except.toOption, Option.bind_some, hp, Option.map_some, Option.some.injEq,
    Prod.mk.injEq] at hcheck
  obtain ⟨hright, hwrong⟩ := hcheck
  have htaken : r.Matches "1,234.50 USD".toList := (hall _).1.mpr hright
  have hrefused : ¬ r.Matches "12,34.50 USD".toList := by
    rw [(hall _).1, hwrong]
    exact Bool.false_ne_true
  refine ⟨r, hr, htaken, hrefused, fun ctx => ⟨((hall _).2.1 ctx).mp htaken, ?_⟩⟩
  exact not_not.mp fun h => hrefused (((hall _).2.1 ctx).mpr h)

end Formatted

end Covenant
