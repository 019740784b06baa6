import Covenant.Proofs.Format.Dates
import Covenant.Proofs.Format.Readings
import Covenant.Proofs.Pattern.Cutting

/-!
Writing in formats what was read in formats.

* `Formatted.Plain`: dates and amounts of money as formats read them; `Formatted.plain_of_read`.
* `Formatted.write_of_plain`: they are written in every format, but for those that show currencies
  by their symbols.
* `Formatted.write_of_read`: what was read in a format is written in it, and in other formats.
-/

namespace Covenant

/-! ### Currencies -/

/-- **The code of a currency**: three capital letters. -/
def IsCurrencyCode (cs : List Char) : Prop :=
  cs.length = 3 ∧ cs.all Char.isUpper = true

instance (cs : List Char) : Decidable (IsCurrencyCode cs) :=
  inferInstanceAs (Decidable (_ ∧ _))

theorem IsCurrencyCode.not_backslash {cs : List Char} (h : IsCurrencyCode cs) : '\\' ∉ cs := fun hmem =>
  absurd (List.all_eq_true.mp h.2 '\\' hmem) (by decide)

theorem admits_capital_iff {c : Char} :
    (ClassPart.range 'A' 'Z').admits c = true ↔ c.isUpper = true := by
  simp only [Char.isUpper, ClassPart.admits, Bool.and_eq_true, decide_eq_true_eq]
  exact Iff.rfl

/-- A text without escapes stands for itself. -/
theorem replacement_plain {cs : List Char} (h : '\\' ∉ cs) :
    replacement? cs = some (cs.map .char) := by
  induction cs with
  | nil => rfl
  | cons c cs ih =>
    have hrest := ih (List.not_mem_of_not_mem_cons h)
    have hc : c ≠ '\\' := (List.ne_of_not_mem_cons h).symm
    rw [replacement?, hrest]
    · rfl
    all_goals
      intros
      simp_all

namespace CurrencyStyle

variable {style : CurrencyStyle} {cs : List Char}

/-- The codes of currencies are what their pattern matches. -/
theorem admits_code_iff : (Symbol.pattern CurrencyStyle.code.regex).toPattern.Admits cs ↔
    IsCurrencyCode cs := by
  have hpattern : (Symbol.pattern CurrencyStyle.code.regex).toPattern =
      .rep (.oneOf false [.range 'A' 'Z']) 3 (some 0) false := by
    decide +kernel
  rw [hpattern]
  constructor
  · intro h
    obtain ⟨hall, hleast, hmost⟩ := Pattern.exists_of_admits_class h
    exact ⟨Nat.le_antisymm (hmost 0 rfl) hleast, List.all_eq_true.mpr fun c hc =>
      admits_capital_iff.mp (by simpa using hall c hc)⟩
  · rintro ⟨hlength, hall⟩
    refine Pattern.admits_class false (fun c hc => ?_) (Nat.le_of_eq hlength.symm) fun m _ =>
      (Nat.le_of_eq hlength).trans (Nat.le_add_right _ _)
    rw [List.any_cons, List.any_nil, Bool.or_false, Bool.bne_false]
    exact admits_capital_iff.mpr (List.all_eq_true.mp hall c hc)

/-- **A currency is read as its code**, however it is shown. -/
theorem isCurrencyCode_of_admits (h : (Symbol.pattern style.regex).toPattern.Admits cs) :
    IsCurrencyCode (Monetary.currencyCode (String.ofList cs)).toList := by
  cases style with
  | code =>
    have hcode := admits_code_iff.mp h
    have hcodes : ∀ e ∈ currencySymbols, IsCurrencyCode e.2.toList := by decide +kernel
    unfold Monetary.currencyCode
    cases hlookup : currencySymbols.lookup (String.ofList cs) with
    | none => rwa [Option.getD_none, String.toList_ofList]
    | some code =>
      obtain ⟨before, after, hmem, -⟩ := List.lookup_eq_some_iff.mp hlookup
      exact hcodes (String.ofList cs, code) (by simp [hmem])
  | symbol =>
    have hall : ((Symbol.pattern CurrencyStyle.symbol.regex).toPattern.texts?.any (·.all fun cs =>
        decide (IsCurrencyCode (Monetary.currencyCode (String.ofList cs)).toList))) = true := by
      decide +kernel
    exact of_decide_eq_true (Pattern.holds_of_texts hall h)

/-- A currency that is shown by its symbol has one. -/
theorem shown_of_admits (h : (Symbol.pattern CurrencyStyle.symbol.regex).toPattern.Admits cs) :
    ∃ e, currencySymbols.find? (fun e =>
        Value.same (.text e.2) (.text (Monetary.currencyCode (String.ofList cs)))) = some e ∧
      '\\' ∉ e.1.toList := by
  have hall : ((Symbol.pattern CurrencyStyle.symbol.regex).toPattern.texts?.any (·.all fun cs =>
      (currencySymbols.find? fun e => Value.same (.text e.2)
        (.text (Monetary.currencyCode (String.ofList cs)))).any
          fun e => decide ('\\' ∉ e.1.toList))) = true := by
    decide +kernel
  have hshown := Pattern.holds_of_texts hall h
  cases hfind : currencySymbols.find? (fun e =>
      Value.same (.text e.2) (.text (Monetary.currencyCode (String.ofList cs)))) with
  | none =>
    rw [hfind] at hshown
    cases hshown
  | some e =>
    rw [hfind] at hshown
    exact ⟨e, rfl, of_decide_eq_true hshown⟩

end CurrencyStyle

namespace MonetaryFormat

/-- The currency has a place in every format. -/
theorem currency_mem_layout {format : String} {f : MonetaryFormat} (h : ofString format = .ok f) :
    .currency ∈ f.layout := by
  obtain ⟨amount, -, h⟩ := Outcome.bind_eq_ok.mp h
  simp only at h
  split at h
  · rename_i cs style hparts
    cases h
    have hmem : (cs, style) ∈ (splitCurrency [] amount.before).1 ++ (splitCurrency [] amount.after).1 :=
      hparts ▸ List.mem_singleton_self _
    have hpieces : ∀ {parts : List (List Char × CurrencyStyle) × List Char}, (cs, style) ∈ parts.1 →
        .currency ∈ pieces parts := fun hmem =>
      List.mem_append_left _ (List.mem_flatMap.mpr ⟨_, hmem, by simp⟩)
    rw [layout]
    rcases List.mem_append.mp hmem with hmem | hmem
    · exact List.mem_append_left _ (List.mem_append_left _ (hpieces hmem))
    · exact List.mem_append_right _ (hpieces hmem)
  · cases h

theorem admits_currency {format : String} {f : MonetaryFormat} (hf : ofString format = .ok f)
    {text : String} {texts : List (List Char)} (h : splitBySymbols? f.symbols text = some texts) :
    (Symbol.pattern f.style.regex).toPattern.Admits (f.pieceText .currency texts) := by
  obtain ⟨hall, -⟩ := Pattern.admits_of_split h
  rw [symbols, List.map_map, List.forall₂_map_left_iff] at hall
  obtain ⟨cs, hfind, hcs⟩ := forall₂_find hall (currency_mem_layout hf)
  rw [pieceText, hfind]
  exact hcs

end MonetaryFormat

namespace Monetary

variable {text format : String} {v : Value}

def value (x : Float) (code : String) : Value :=
  .object [("$class", .text typeName), ("doubleValue", .double x), ("currencyCode", .text code)]

/-- **What is read in a monetary format** is an amount in the currency that the text shows. -/
theorem value_of_read (h : read text format = .ok v) : ∃ f x cs, MonetaryFormat.ofString format = .ok f ∧
    (Symbol.pattern f.style.regex).toPattern.Admits cs ∧ v = value x (currencyCode (String.ofList cs)) := by
  obtain ⟨f, hf, h⟩ := Outcome.bind_eq_ok.mp h
  split at h
  · cases h
  · rename_i texts hsplit
    obtain ⟨x, -, h⟩ := Outcome.bind_eq_ok.mp h
    exact ⟨f, x, _, hf, MonetaryFormat.admits_currency hf hsplit, (Except.ok.inj h).symm⟩

/-- **An amount is written in a format that can show its currency**, with the currency in its
place. -/
theorem write_value {f : MonetaryFormat} (hf : MonetaryFormat.ofString format = .ok f)
    {code shown : String} (h : shownCurrency f.style format (.text code) = .ok shown)
    (hplain : '\\' ∉ shown.toList) (x : Float) : write (value x code) format = .ok (String.ofList
      (fill (shown.toList.map .char) f.before ++ f.amount.writeNumber x ++
        fill (shown.toList.map .char) f.after)) := by
  refine Outcome.bind_eq_ok.mpr ⟨f, hf, Outcome.bind_eq_ok.mpr ⟨.text code, rfl,
    Outcome.bind_eq_ok.mpr ⟨shown, h, Outcome.bind_eq_ok.mpr ⟨_, ?_,
      Outcome.bind_eq_ok.mpr ⟨x, rfl, rfl⟩⟩⟩⟩⟩
  rw [replacement_plain hplain]
  rfl

end Monetary

/-! ### Formats by type -/

/-- Whole minutes are what the clock shows, or else what the clocks of the zone show. -/
def ReadingContext.WholeMinutes (ctx : ReadingContext) : Prop :=
  DateTime.WholeMinutes ctx.clock ctx.zone

namespace Formatted

/-- **Dates and amounts of money as formats read them**; nothing is asked of other types. -/
structure Plain (T : String) (v : Value) : Prop where
  date : T = "DateTime" → ∃ m : Moment, ∃ s, m.Valid ∧ m.offset = some s ∧ s.natAbs < 86400 ∧
    60 ∣ s ∧ v = .text m.text
  money : T = Monetary.typeName → ∃ x code, IsCurrencyCode code.toList ∧ v = Monetary.value x code

variable {k : Formatted} {T format text : String} {r : Rule} {ctx : ReadingContext} {v : Value}

theorem ofType_eq_some_iff : ofType? T = some k ↔ (k = .date ∧ T = "DateTime") ∨
    (k = .amount ∧ T = "Double") ∨ (k = .monetary ∧ T = Monetary.typeName) := by
  unfold ofType?
  constructor
  · intro h
    split_ifs at h <;> cases h <;> simp_all
  · rintro (⟨rfl, rfl⟩ | ⟨rfl, rfl⟩ | ⟨rfl, rfl⟩) <;> decide

/-- **What formats read** is plain, where clocks are set by whole minutes. -/
theorem plain_of_read (hT : ofType? T = some k) (hclock : ctx.WholeMinutes)
    (h : k.read text format ctx = .ok v) : Plain T v := by
  rcases ofType_eq_some_iff.mp hT with ⟨rfl, rfl⟩ | ⟨rfl, rfl⟩ | ⟨rfl, rfl⟩
  · obtain ⟨t, ht, rfl⟩ := Outcome.map_eq_ok.mp h
    obtain ⟨m, s, hm, hoffset, hs, hwhole, rfl⟩ := DateTime.exists_moment ht hclock
    exact ⟨fun _ => ⟨m, s, hm, hoffset, hs, hwhole, rfl⟩, fun h => absurd h (by decide)⟩
  · exact ⟨fun h => absurd h (by decide), fun h => absurd h (by decide)⟩
  · obtain ⟨f, x, cs, -, hcs, rfl⟩ := Monetary.value_of_read h
    exact ⟨fun h => absurd h (by decide),
      fun _ => ⟨x, _, CurrencyStyle.isCurrencyCode_of_admits hcs, rfl⟩⟩

/-- Doubles are written in every amount format. -/
theorem write_double (hrule : Formatted.amount.rule format = .ok r) (x : Float) :
    ∃ t, Formatted.amount.write (.double x) format = .ok t := by
  obtain ⟨f, hf, -⟩ := Outcome.bind_eq_ok.mp hrule
  exact ⟨_, Outcome.bind_eq_ok.mpr ⟨f, hf, Outcome.bind_eq_ok.mpr ⟨x, rfl, rfl⟩⟩⟩

/-- **What is plain is written in every format** for its type, but for those that show currencies by
their symbols. -/
theorem write_of_plain (hT : ofType? T = some k) (hrule : k.rule format = .ok r) (h : Plain T v)
    (hdouble : k = .amount → ∃ x, v = .double x)
    (hcode : k = .monetary → ∀ f, MonetaryFormat.ofString format = .ok f → f.style = .code) :
    ∃ t, k.write v format = .ok t := by
  rcases ofType_eq_some_iff.mp hT with ⟨rfl, hname⟩ | ⟨rfl, -⟩ | ⟨rfl, hname⟩
  · obtain ⟨f, hf, -⟩ := Outcome.bind_eq_ok.mp hrule
    obtain ⟨m, s, hm, hoffset, hs, hwhole, rfl⟩ := h.date hname
    have hwrite := DateTime.write_text hf hm hoffset hs hwhole
    exact hwrite
  · obtain ⟨x, rfl⟩ := hdouble rfl
    exact write_double hrule x
  · obtain ⟨f, hf, -⟩ := Outcome.bind_eq_ok.mp hrule
    obtain ⟨x, code, hcurrency, rfl⟩ := h.money hname
    have hshown : Monetary.shownCurrency f.style format (.text code) = .ok code := by
      rw [hcode rfl f hf]
      rfl
    exact ⟨_, Monetary.write_value hf hshown hcurrency.not_backslash x⟩

/-- **What was read in a format is written in every format** for its type, but for those that show
currencies by their symbols where the other shows their codes. -/
theorem write_of_read {format' : String} (hrule : k.rule format' = .ok r)
    (hclock : ctx.WholeMinutes) (h : k.read text format ctx = .ok v) (hsymbols : k = .monetary → ∀ f f',
      MonetaryFormat.ofString format = .ok f → MonetaryFormat.ofString format' = .ok f' →
        f'.style = .symbol → f.style = .symbol) :
    ∃ t, k.write v format' = .ok t := by
  cases k with
  | date =>
    refine write_of_plain (k := .date) (T := "DateTime") rfl hrule (plain_of_read rfl hclock h) ?_ ?_
    · simp
    · simp
  | amount =>
    obtain ⟨x, -, rfl⟩ := Outcome.map_eq_ok.mp h
    exact write_double hrule x
  | monetary =>
    obtain ⟨f, x, cs, hf, hcs, rfl⟩ := Monetary.value_of_read h
    obtain ⟨f', hf', -⟩ := Outcome.bind_eq_ok.mp hrule
    have hcurrency := CurrencyStyle.isCurrencyCode_of_admits hcs
    cases hstyle : f'.style with
    | code => exact ⟨_, Monetary.write_value hf' (by rw [hstyle]; rfl) hcurrency.not_backslash x⟩
    | symbol =>
      rw [hsymbols rfl f f' hf hf' hstyle] at hcs
      obtain ⟨e, he, hplain⟩ := CurrencyStyle.shown_of_admits hcs
      have hshown : Monetary.shownCurrency f'.style format'
          (.text (Monetary.currencyCode (String.ofList cs))) = .ok e.1 := by
        rw [hstyle, Monetary.shownCurrency, he]
        all_goals simp
      exact ⟨_, Monetary.write_value hf' hshown hplain x⟩

end Formatted

end Covenant
