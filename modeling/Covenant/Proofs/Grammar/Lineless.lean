import Covenant.Proofs.Document.Lines
import Covenant.Proofs.Grammar.Actions
import Covenant.Proofs.Pattern.Primitives
import Covenant.Proofs.Pattern.Tokens
import Covenant.Proofs.Text.Escapes

/-!
Rules without line breaks.

* `Pattern.breaks`: whether a pattern takes texts with line breaks.
* `RuleSet.lineless`: whether rules that mention no others read texts without line breaks only. A
  text in quotes may have some, but no value then.
* `Derives.not_break`: what such rules derive, and has a value, has no line breaks.
* `RuleSet.filled`: whether a rule reads no empty text.
-/

namespace Covenant

/-! ### Line breaks in patterns -/

namespace Pattern

/-- Whether a pattern may take a text with a line break. -/
def breaks : Pattern → Bool
  | .empty => false
  | .char c => c = '\n' || c = '\r'
  | .any => true
  | .oneOf negated parts => ['\n', '\r'].any fun c => parts.any (·.admits c) != negated
  | .seq p q | .alt p q => p.breaks || q.breaks
  | .rep p _ _ _ => p.breaks

variable {p : Pattern} {cs : List Char}

theorem not_break_of_admits (h : p.breaks = false) (hcs : p.Admits cs) :
    '\n' ∉ cs ∧ '\r' ∉ cs := by
  induction p generalizing cs with
  | empty =>
    rw [admits_empty_iff.mp hcs]
    simp
  | char c =>
    obtain ⟨hfeed, hreturn⟩ := Bool.or_eq_false_iff.mp h
    rw [admits_char_iff.mp hcs, List.mem_singleton, List.mem_singleton]
    exact ⟨fun heq => of_decide_eq_false hfeed heq.symm,
      fun heq => of_decide_eq_false hreturn heq.symm⟩
  | any => cases h
  | oneOf negated parts =>
    obtain ⟨d, hd, rfl⟩ := admits_oneOf_iff.mp hcs
    have hbreak : ∀ c ∈ ['\n', '\r'], (parts.any (·.admits c) != negated) = false := by
      simpa [breaks] using h
    refine ⟨fun hmem => ?_, fun hmem => ?_⟩
    · rw [← List.mem_singleton.mp hmem, hbreak '\n' (by simp)] at hd
      cases hd
    · rw [← List.mem_singleton.mp hmem, hbreak '\r' (by simp)] at hd
      cases hd
  | seq p q ihp ihq =>
    obtain ⟨hp, hq⟩ := Bool.or_eq_false_iff.mp h
    obtain ⟨front, back, rfl, hfront, hback⟩ := admits_seq_iff.mp hcs
    obtain ⟨hfeed, hreturn⟩ := ihp hp hfront
    obtain ⟨hfeed', hreturn'⟩ := ihq hq hback
    exact ⟨by simp [hfeed, hfeed'], by simp [hreturn, hreturn']⟩
  | alt p q ihp ihq =>
    obtain ⟨hp, hq⟩ := Bool.or_eq_false_iff.mp h
    rcases admits_alt_iff.mp hcs with hcs | hcs
    · exact ihp hp hcs
    · exact ihq hq hcs
  | rep p least more lazy ih =>
    obtain ⟨pieces, rfl, hpieces, -⟩ := exists_of_admits_rep hcs
    constructor
    · intro hmem
      obtain ⟨piece, hpiece, hmem⟩ := List.mem_flatten.mp hmem
      exact (ih h (hpieces piece hpiece)).1 hmem
    · intro hmem
      obtain ⟨piece, hpiece, hmem⟩ := List.mem_flatten.mp hmem
      exact (ih h (hpieces piece hpiece)).2 hmem

theorem mayBeEmpty_of_admits (h : p.Admits []) : p.mayBeEmpty = true := by
  induction p with
  | empty => rfl
  | char c => cases admits_char_iff.mp h
  | any =>
    obtain ⟨d, -, hd⟩ := admits_any_iff.mp h
    cases hd
  | oneOf negated parts =>
    obtain ⟨d, -, hd⟩ := admits_oneOf_iff.mp h
    cases hd
  | seq p q ihp ihq =>
    obtain ⟨front, back, heq, hfront, hback⟩ := admits_seq_iff.mp h
    obtain ⟨rfl, rfl⟩ := List.append_eq_nil_iff.mp heq.symm
    rw [mayBeEmpty, ihp hfront, ihq hback]
    rfl
  | alt p q ihp ihq =>
    rw [mayBeEmpty, Bool.or_eq_true]
    exact (admits_alt_iff.mp h).imp ihp ihq
  | rep p least more lazy ih =>
    obtain ⟨pieces, hflatten, hpieces, hleast, -⟩ := exists_of_admits_rep h
    rw [mayBeEmpty, Bool.or_eq_true, beq_iff_eq]
    cases pieces with
    | nil => exact .inl (Nat.le_zero.mp hleast)
    | cons piece pieces =>
      obtain ⟨rfl, -⟩ := List.append_eq_nil_iff.mp hflatten.symm
      exact .inr (ih (hpieces [] (by simp)))

end Pattern

/-! ### Rules -/

/-- Whether a rule reads texts in quotes as what stands between them. -/
def Rule.quotes (r : Rule) : Bool :=
  decide (r.alternatives = [[.pattern "\"(?:[^\"\\\\]|\\\\.)*\""]]) &&
    decide (r.action = some ⟨"string", []⟩)

/-- Whether a symbol takes no line breaks, if the rules in `names` do not. -/
def Symbol.lineless (names : List String) (x : Symbol) : Bool :=
  match x.kind with
  | .literal => x.value.toList.all fun c => c != '\n' && c != '\r'
  | .pattern => !x.toPattern.breaks
  | .rule => names.contains x.value

namespace RuleSet

/-- **Whether rules read no line breaks.** All that they mention is among them. -/
def lineless (s : RuleSet) (names : List String) : Bool :=
  names.all fun name => (s.find? name).all fun r =>
    r.quotes || r.alternatives.all fun xs => xs.all (Symbol.lineless names)

/-- Whether a rule reads something: one symbol of each alternative does. The rules that it mentions
are followed for so many steps. -/
def filled (s : RuleSet) : Nat → String → Bool
  | 0, _ => false
  | fuel + 1, name => (s.find? name).all fun r => r.alternatives.all fun xs => xs.any fun x =>
      x.cardinality == .one && match x.kind with
        | .literal => x.value != ""
        | .pattern => !x.toPattern.mayBeEmpty
        | .rule => s.filled fuel x.value

end RuleSet

/-- The body of a JSON string has no line breaks. -/
theorem JsonText.IsBody.not_break {cs : List Char} (h : IsBody cs) : '\n' ∉ cs ∧ '\r' ∉ cs := by
  have hplain : ∀ {c : Char} {cs : List Char}, c ≠ '\n' → c ≠ '\r' → '\n' ∉ cs ∧ '\r' ∉ cs →
      '\n' ∉ c :: cs ∧ '\r' ∉ c :: cs := fun hfeed hreturn h =>
    ⟨List.not_mem_cons_of_ne_of_not_mem hfeed.symm h.1,
      List.not_mem_cons_of_ne_of_not_mem hreturn.symm h.2⟩
  have hdigit : ∀ {c : Char}, (Text.hexValue? c).isSome → c ≠ '\n' ∧ c ≠ '\r' := by
    intro c hc
    constructor <;> rintro rfl <;> cases hc
  induction h with
  | nil => simp
  | plain _ _ hcontrol _ ih =>
    refine hplain ?_ ?_ ih <;> rintro rfl <;> exact hcontrol (by decide)
  | @short c cs hletter _ ih =>
    refine hplain (by decide) (by decide) (hplain ?_ ?_ ih) <;> rintro rfl <;> cases hletter
  | unit hdigits _ ih =>
    refine hplain (by decide) (by decide) (hplain (by decide) (by decide) ?_)
    simp only [List.mem_cons, List.not_mem_nil, or_false, forall_eq_or_imp, forall_eq] at hdigits
    obtain ⟨hw, hx, hy, hz⟩ := hdigits
    exact hplain (hdigit hw).1 (hdigit hw).2 (hplain (hdigit hx).1 (hdigit hx).2
      (hplain (hdigit hy).1 (hdigit hy).2 (hplain (hdigit hz).1 (hdigit hz).2 ih)))

section

variable {s : RuleSet} {names : List String} {ctx : ReadingContext}

/-- A text in quotes that has a value has no line breaks. -/
theorem Rule.not_break_of_quotes {r : Rule} (h : r.quotes = true) {name : String}
    (hfind : s.find? name = some r) {q : Nat} {alternative : List Symbol} {cs : List Char}
    {ds : List Derivation} {v : Value} (hq : r.alternatives[q]? = some alternative)
    (hds : DerivesAll s alternative cs ds) (hv : (Derivation.node name q ds).evaluate s ctx = .ok v) :
    '\n' ∉ cs ∧ '\r' ∉ cs := by
  obtain ⟨halternatives, haction⟩ := (Bool.and_eq_true _ _).mp h
  have haction := of_decide_eq_true haction
  obtain rfl := eq_of_alternatives (of_decide_eq_true halternatives) hq
  obtain ⟨haccepts, rfl⟩ := (derivesAll_token_iff (by simp [Symbol.pattern]) rfl).mp hds
  obtain ⟨body, hquoted, rfl⟩ := Pattern.quoted_of_admits (Symbol.admits_of_accepts haccepts)
  rw [Derivation.evaluate_node hfind (Derivation.evaluateAll_token _), Rule.apply_plain haction] at hv
  have hbody : JsonText.IsBody body := by
    obtain ⟨hbody, -⟩ | ⟨-, f, hread, -⟩ := Json.read_quoted hquoted
    · exact hbody
    · change Action.readJson (.text _) = _ at hv
      rw [Action.readJson, hread] at hv
      simp only at hv
      split at hv <;> cases hv
  obtain ⟨hfeed, hreturn⟩ := hbody.not_break
  simp [hfeed, hreturn]

/-- A literal or pattern takes no line breaks. -/
theorem Symbol.not_break_of_accepts {x : Symbol} (hkind : x.kind ≠ .rule)
    (hx : x.lineless names = true) {cs : List Char} (h : x.Accepts cs) : '\n' ∉ cs ∧ '\r' ∉ cs := by
  unfold Symbol.lineless at hx
  split at hx
  · rename_i hliteral
    obtain ⟨kind, value, cardinality⟩ := x
    cases hliteral
    rw [Symbol.accepts_literal_iff.mp h]
    simp only [List.all_eq_true, Bool.and_eq_true, bne_iff_ne] at hx
    exact ⟨fun hmem => (hx _ hmem).1 rfl, fun hmem => (hx _ hmem).2 rfl⟩
  · rw [Bool.not_eq_true'] at hx
    exact Pattern.not_break_of_admits hx (Symbol.admits_of_accepts h)
  · exact absurd ‹_› hkind

mutual

/-- **What is derived without line breaks**, if it has a value. -/
theorem Derives.not_break (hs : s.lineless names = true) {x : Symbol} {cs : List Char}
    {d : Derivation} {v : Value} (h : Derives s x cs d) (hx : x.lineless names = true)
    (hv : d.evaluate s ctx = .ok v) : '\n' ∉ cs ∧ '\r' ∉ cs :=
  match h with
  | .token hkind _ haccepts => Symbol.not_break_of_accepts hkind hx haccepts
  | @Derives.rule _ x cs r q alternative ds hkind _ hfind hq hds => by
    rw [Symbol.lineless, hkind, List.contains_iff_mem] at hx
    have hrule := List.all_eq_true.mp hs _ hx
    rw [hfind, Option.all_some, Bool.or_eq_true] at hrule
    rcases hrule with hquotes | hlines
    · exact Rule.not_break_of_quotes hquotes hfind hq hds hv
    · obtain ⟨vs, _, hvs, -⟩ := Derivation.evaluate_node_eq_ok.mp hv
      have hxs := List.all_eq_true.mp hlines _ (List.mem_of_getElem? hq)
      exact DerivesAll.not_break hs hds (List.all_eq_true.mp hxs) hvs
  | .absent _ => by simp
  | .present _ h => Derives.not_break hs h hx hv
  | @Derives.many _ x n cs ds _ hds => by
    obtain ⟨vs, hvs, -⟩ := Derivation.evaluate_many_eq_ok.mp hv
    exact DerivesAll.not_break hs hds (fun y hy => List.eq_of_mem_replicate hy ▸ hx) hvs

theorem DerivesAll.not_break (hs : s.lineless names = true) {xs : List Symbol} {cs : List Char}
    {ds : List Derivation} {vs : List Value} (h : DerivesAll s xs cs ds)
    (hxs : ∀ x ∈ xs, x.lineless names = true) (hvs : Derivation.evaluateAll s ctx ds = .ok vs) :
    '\n' ∉ cs ∧ '\r' ∉ cs :=
  match h with
  | .nil => by simp
  | .cons hd hrest => by
    obtain ⟨hx, hxs⟩ := List.forall_mem_cons.mp hxs
    obtain ⟨v, vs, hv, hvs, -⟩ := Derivation.evaluateAll_cons_eq_ok.mp hvs
    have hfront := Derives.not_break hs hd hx hv
    have hback := DerivesAll.not_break hs hrest hxs hvs
    simp [hfront, hback]

end

/-- Symbols that derive the empty text one after the other each derive it. -/
theorem DerivesAll.exists_nil {xs : List Symbol} {ds : List Derivation} (h : DerivesAll s xs [] ds)
    {x : Symbol} (hx : x ∈ xs) : ∃ d, Derives s x [] d := by
  induction xs generalizing ds with
  | nil => cases hx
  | cons y ys ih =>
    obtain ⟨_, _, d, ds, hnil, -, hd, hds⟩ := derivesAll_cons_iff.mp h
    obtain ⟨rfl, rfl⟩ := List.append_eq_nil_iff.mp hnil.symm
    rcases List.mem_cons.mp hx with rfl | hx
    · exact ⟨d, hd⟩
    · exact ih hds hx

/-- **A filled rule derives no empty text.** -/
theorem RuleSet.not_derives_nil {fuel : Nat} {name : String} (hs : s.filled fuel name = true)
    (d : Derivation) : ¬ Derives s (.rule name) [] d := by
  intro h
  induction fuel generalizing name d with
  | zero => cases hs
  | succ fuel ih =>
    obtain ⟨r, q, alternative, ds, hfind, hq, hds, -⟩ := derives_rule_iff.mp h
    rw [filled, hfind, Option.all_some] at hs
    obtain ⟨x, hx, hfilled⟩ :=
      List.any_eq_true.mp (List.all_eq_true.mp hs _ (List.mem_of_getElem? hq))
    obtain ⟨hone, hfilled⟩ := (Bool.and_eq_true _ _).mp hfilled
    obtain ⟨e, he⟩ := hds.exists_nil hx
    obtain ⟨kind, value, cardinality⟩ := x
    obtain rfl := eq_of_beq hone
    cases kind with
    | literal =>
      have haccepts := ((derives_token_iff (by simp) rfl).mp he).1
      have hvalue : [] = value.toList := Symbol.accepts_literal_iff.mp haccepts
      simp [String.toList_eq_nil_iff.mp hvalue.symm] at hfilled
    | pattern =>
      have haccepts := ((derives_token_iff (by simp) rfl).mp he).1
      rw [Pattern.mayBeEmpty_of_admits (Symbol.admits_of_accepts haccepts)] at hfilled
      cases hfilled
    | rule => exact ih hfilled e he

end

end Covenant
