import Covenant.Proofs.Format.Grouping
import Covenant.Proofs.Format.Written

/-!
Amounts read back from what was written.

* `CurrencyStyle.read_of_shown`: what a format shows for a currency is read as its code.
* `AmountFormat.split_text`, `MonetaryFormat.split_text`: a text of a format is cut as it was put
  together, whatever stands around the number.
* `AmountFormat.numerals_return`: so numerals come back with their sign, unless the sign is a
  separator of the format; currencies always do.
-/

namespace Covenant

open Decimal (IsPlaced signed)

/-! ### Currencies -/

namespace CurrencyStyle

variable {style : CurrencyStyle}

/-- Currencies of a style are shown in one width. -/
theorem hasWidth (style : CurrencyStyle) : (Symbol.pattern style.regex).toPattern.HasWidth := by
  cases style with
  | code => exact ⟨3, fun cs h => (admits_code_iff.mp h).1⟩
  | symbol =>
    have hall : ((Symbol.pattern CurrencyStyle.symbol.regex).toPattern.texts?.any (·.all fun cs =>
        decide (cs.length = 1))) = true := by
      decide +kernel
    exact ⟨1, fun cs h => of_decide_eq_true (Pattern.holds_of_texts hall h)⟩

/-- **What a format shows for a currency is read as its code.** -/
theorem read_of_shown {format code shown : String} (hcode : IsCurrencyCode code.toList)
    (h : Monetary.shownCurrency style format (.text code) = .ok shown) :
    (Symbol.pattern style.regex).toPattern.Admits shown.toList ∧ '\\' ∉ shown.toList ∧
      Monetary.currencyCode shown = code := by
  cases style with
  | code =>
    obtain rfl : code = shown := Except.ok.inj h
    refine ⟨admits_code_iff.mpr hcode, hcode.not_backslash, ?_⟩
    have hkeys : ∀ e ∈ currencySymbols, e.1.toList.length ≠ 3 := by decide +kernel
    have hnone : currencySymbols.lookup code = none := by
      apply List.lookup_eq_none_iff.mpr
      intro e he
      apply bne_iff_ne.mpr
      rintro rfl
      exact hkeys e he hcode.1
    rw [Monetary.currencyCode, hnone, Option.getD_none]
  | symbol =>
    have hsymbols : ∀ e ∈ currencySymbols,
        (Symbol.pattern CurrencyStyle.symbol.regex).toPattern.Admits e.1.toList ∧
          '\\' ∉ e.1.toList ∧ Monetary.currencyCode e.1 = e.2 := by
      decide +kernel
    rw [Monetary.shownCurrency] at h
    · split at h
      · rename_i e hfind
        obtain rfl := Except.ok.inj h
        have hsame : e.2 = code := by simpa [Value.same] using List.find?_some hfind
        obtain ⟨hadmits, hplain, hread⟩ := hsymbols e (List.mem_of_find?_eq_some hfind)
        exact ⟨hadmits, hplain, hread.trans hsame⟩
      · cases h
    · intro items hlist
      cases hlist
    · intro fields hobject
      cases hobject

end CurrencyStyle

/-! ### Numbers among other texts -/

theorem hasWidth_literal (cs : List Char) :
    (Symbol.literal (String.ofList cs)).toPattern.HasWidth :=
  ⟨cs.length, fun _ h => congrArg List.length (Pattern.admits_literalSymbol_iff.mp h)⟩

/-- **A number among texts of one width each is cut out as it was put in.** -/
theorem split_around {before after : List Symbol} {x : Symbol} {texts : List (List Char)}
    (hbefore : ∀ y ∈ before, y.toPattern.HasWidth) (hafter : ∀ y ∈ after, y.toPattern.HasWidth)
    (h : List.Forall₂ (fun y cs => y.toPattern.Admits cs) (before ++ x :: after) texts) :
    splitBySymbols? (before ++ x :: after) (String.ofList texts.flatten) = some texts := by
  rw [splitBySymbols?, String.toList_ofList]
  have hall : List.Forall₂ Pattern.Admits ((before ++ x :: after).map Symbol.toPattern) texts :=
    List.forall₂_map_left_iff.mpr h
  refine Pattern.split_of_unique hall fun found hfound hflatten => ?_
  rw [List.map_append, List.map_cons] at hall hfound
  exact Pattern.unique_of_widths (List.forall_mem_map.mpr hbefore) (List.forall_mem_map.mpr hafter)
    hall hfound hflatten

/-! ### Amounts -/

namespace AmountFormat

variable {f : AmountFormat} {number cs : List Char}

/-- The text of what stands before or after a number, as a text of its symbols. -/
def affixTexts (cs : List Char) : List (List Char) :=
  if cs.isEmpty then [] else [cs]

theorem admits_affix (cs : List Char) :
    List.Forall₂ (fun y cs => y.toPattern.Admits cs) (affix cs) (affixTexts cs) := by
  unfold affix affixTexts
  split
  · exact .nil
  · exact .cons (Pattern.admits_literalSymbol_iff.mpr rfl) .nil

theorem flatten_affixTexts (cs : List Char) : (affixTexts cs).flatten = cs := by
  unfold affixTexts
  split
  · exact (List.isEmpty_iff.mp ‹_›).symm
  · exact List.flatten_singleton

theorem hasWidth_affix (cs : List Char) : ∀ y ∈ affix cs, y.toPattern.HasWidth := by
  intro y hy
  unfold affix at hy
  split at hy
  · cases hy
  · rw [List.mem_singleton.mp hy]
    exact hasWidth_literal cs

theorem writeNumber_eq (f : AmountFormat) (x : Float) : f.writeNumber x =
    signed (decide (x < 0.0)) (f.writeNumeral (Decimal.fixed f.places x).toList) := by
  rw [writeNumber, signed]
  simp only [decide_eq_true_eq]

/-- A numeral with its sign as a text of the format. -/
def text (f : AmountFormat) (negative : Bool) (n : List Char) : String :=
  String.ofList (f.before ++ signed negative (f.writeNumeral n) ++ f.after)

/-- **A text of the format is cut as it was put together.** -/
theorem split_text (h : f.number.toPattern.Admits number) : ∃ pieces,
    splitBySymbols? f.symbols (String.ofList (f.before ++ number ++ f.after)) = some pieces ∧
      f.numberText pieces = number := by
  have hall : List.Forall₂ (fun y cs => y.toPattern.Admits cs)
      (affix f.before ++ f.number :: affix f.after)
      (affixTexts f.before ++ number :: affixTexts f.after) :=
    List.rel_append (admits_affix f.before) (.cons h (admits_affix f.after))
  have hflatten : (affixTexts f.before ++ number :: affixTexts f.after).flatten =
      f.before ++ number ++ f.after := by
    rw [List.flatten_append, List.flatten_cons, flatten_affixTexts, flatten_affixTexts,
      List.append_assoc]
  refine ⟨affixTexts f.before ++ number :: affixTexts f.after, ?_, ?_⟩
  · rw [← hflatten, symbols, List.append_assoc, List.singleton_append]
    exact split_around (hasWidth_affix f.before) (hasWidth_affix f.after) hall
  · rw [numberText, (admits_affix f.before).length_eq, List.getD_append_right _ _ _ _ (Nat.le_refl _),
      Nat.sub_self, List.getD_cons_zero]

end AmountFormat

/-! ### Amounts of money -/

namespace MonetaryFormat

variable {f : MonetaryFormat} {shown number : List Char}

/-- The text of a piece, for a currency and a number. -/
def Piece.write (shown number : List Char) : Piece → List Char
  | .literal cs => cs
  | .currency => shown
  | .amount => number

/-- A currency and a numeral with its sign as a text of the format. -/
def text (f : MonetaryFormat) (shown : String) (negative : Bool) (n : List Char) : String :=
  String.ofList (Monetary.fill (shown.toList.map .char) f.before ++
    signed negative (f.amount.writeNumeral n) ++ Monetary.fill (shown.toList.map .char) f.after)

/-- Texts around places for the currency are those of their pieces. -/
theorem fill_eq (shown number : List Char)
    (parts : List (List Char × CurrencyStyle) × List Char) :
    Monetary.fill (shown.map .char) parts =
      ((pieces parts).map (Piece.write shown number)).flatten := by
  have hliteral : ∀ cs : List Char,
      ((if cs.isEmpty then [] else [Piece.literal cs]).map (Piece.write shown number)).flatten = cs := by
    intro cs
    split
    · exact (List.isEmpty_iff.mp ‹_›).symm
    · exact List.flatten_singleton
  have hshown : ∀ whole, replacementText whole (shown.map .char) = shown := by
    intro whole
    rw [replacementText, List.flatMap_map]
    exact List.flatMap_singleton' shown
  obtain ⟨fronts, last⟩ := parts
  induction fronts with
  | nil => exact (hliteral last).symm
  | cons front fronts ih =>
    have hpieces : pieces (front :: fronts, last) =
        (if front.1.isEmpty then [] else [Piece.literal front.1]) ++
          .currency :: pieces (fronts, last) := by
      simp [pieces]
    have hfill : Monetary.fill (shown.map .char) (front :: fronts, last) =
        front.1 ++ (shown ++ Monetary.fill (shown.map .char) (fronts, last)) := by
      simp [Monetary.fill, hshown]
    rw [hfill, ih, hpieces, List.map_append, List.flatten_append, hliteral, List.map_cons,
      List.flatten_cons]
    rfl

theorem amount_notMem_pieces (parts : List (List Char × CurrencyStyle) × List Char) :
    .amount ∉ pieces parts := by
  have hliteral : ∀ cs : List Char, .amount ∉ (if cs.isEmpty then [] else [Piece.literal cs]) := by
    intro cs
    split
    · exact List.not_mem_nil
    · exact fun h => nomatch List.mem_singleton.mp h
  intro hmem
  rcases List.mem_append.mp hmem with hmem | hmem
  · obtain ⟨p, -, hmem⟩ := List.mem_flatMap.mp hmem
    rcases List.mem_append.mp hmem with hmem | hmem
    · exact hliteral p.1 hmem
    · exact nomatch List.mem_singleton.mp hmem
  · exact hliteral parts.2 hmem

/-- **A text of the format is cut as it was put together.** -/
theorem split_text {format : String} (hf : ofString format = .ok f)
    (hshown : (Symbol.pattern f.style.regex).toPattern.Admits shown)
    (hnumber : f.amount.number.toPattern.Admits number) : ∃ texts,
      splitBySymbols? f.symbols (String.ofList (Monetary.fill (shown.map .char) f.before ++ number ++
        Monetary.fill (shown.map .char) f.after)) = some texts ∧
      f.pieceText .amount texts = number ∧ f.pieceText .currency texts = shown := by
  have hadmits : ∀ p, (f.symbol p).toPattern.Admits (p.write shown number) := by
    intro p
    cases p with
    | literal cs => exact Pattern.admits_literalSymbol_iff.mpr rfl
    | currency => exact hshown
    | amount => exact hnumber
  have hwidth : ∀ parts, ∀ y ∈ (pieces parts).map f.symbol, y.toPattern.HasWidth := by
    intro parts
    refine List.forall_mem_map.mpr fun p hp => ?_
    cases p with
    | literal cs => exact hasWidth_literal cs
    | currency => exact f.style.hasWidth
    | amount => exact absurd hp (amount_notMem_pieces parts)
  have hpiece : ∀ p ∈ f.layout,
      f.pieceText p (f.layout.map (Piece.write shown number)) = p.write shown number := by
    intro p hp
    have hall : List.Forall₂ (fun q cs => cs = q.write shown number) f.layout
        (f.layout.map (Piece.write shown number)) :=
      List.forall₂_map_right_iff.mpr (List.forall₂_same.mpr fun _ _ => rfl)
    obtain ⟨cs, hfind, rfl⟩ := forall₂_find hall hp
    rw [pieceText, hfind]
    rfl
  have hsymbols : f.symbols =
      (pieces f.before).map f.symbol ++ f.symbol .amount :: (pieces f.after).map f.symbol := by
    simp [symbols, layout]
  have hflatten : Monetary.fill (shown.map .char) f.before ++ number ++
      Monetary.fill (shown.map .char) f.after =
        (f.layout.map (Piece.write shown number)).flatten := by
    rw [fill_eq shown number, fill_eq shown number, layout, List.map_append, List.map_append,
      List.flatten_append, List.flatten_append]
    simp [Piece.write]
  refine ⟨f.layout.map (Piece.write shown number), ?_, hpiece _ (by simp [layout]),
    hpiece _ (currency_mem_layout hf)⟩
  rw [hflatten, hsymbols]
  apply split_around (hwidth f.before) (hwidth f.after)
  rw [← hsymbols, symbols]
  exact List.forall₂_map_left_iff.mpr (List.forall₂_map_right_iff.mpr
    (List.forall₂_same.mpr fun p _ => hadmits p))

end MonetaryFormat

/-! ### Numerals -/

/-- **A numeral with its sign comes back from its text in an amount format**: it is what is left of
the number that is read there, unless the sign is a separator. -/
structure Amount.Restores (format : String) (f : AmountFormat) (negative : Bool)
    (n : List Char) : Prop where
  writes : ∀ v x, v.toDouble? = some x → decide (x < 0.0) = negative →
    (Decimal.fixed f.places x).toList = n → write v format = .ok (f.text negative n)
  reads : ∃ pieces, splitBySymbols? f.symbols (f.text negative n) = some pieces ∧
    f.Returns negative n (f.numeral (f.numberText pieces)) ∧
    read (f.text negative n) format =
      .ofOption (Decimal.readFloat? (String.ofList (f.numeral (f.numberText pieces))))

/-- **So it comes back from its text in a monetary format**, and the currency with it. -/
structure Monetary.Restores (format : String) (f : MonetaryFormat) (code shown : String)
    (negative : Bool) (n : List Char) : Prop where
  writes : ∀ x, decide (x < 0.0) = negative → (Decimal.fixed f.amount.places x).toList = n →
    write (value x code) format = .ok (f.text shown negative n)
  reads : ∃ texts, splitBySymbols? f.symbols (f.text shown negative n) = some texts ∧
    f.amount.Returns negative n (f.amount.numeral (f.pieceText .amount texts)) ∧
    read (f.text shown negative n) format =
      (Outcome.ofOption (Decimal.readFloat?
        (String.ofList (f.amount.numeral (f.pieceText .amount texts))))).map (value · code)

section

variable {format : String} {negative : Bool} {n : List Char}

theorem Amount.restores {f : AmountFormat} (hf : AmountFormat.ofString format = .ok f)
    (hn : IsPlaced f.places n) : Restores format f negative n where
  writes := by
    rintro v x hv rfl rfl
    refine Outcome.bind_eq_ok.mpr ⟨f, hf, Outcome.bind_eq_ok.mpr ⟨x, by rw [hv]; rfl, ?_⟩⟩
    rw [AmountFormat.writeNumber_eq]
    rfl
  reads := by
    have hseparated := AmountFormat.separated hf
    obtain ⟨pieces, hsplit, hnumber⟩ :=
      AmountFormat.split_text (AmountFormat.admits_writeNumeral hseparated hn negative)
    refine ⟨pieces, hsplit, ?_, ?_⟩
    · rw [hnumber]
      exact AmountFormat.returns_numeral hseparated hn negative
    · have hread : ∀ text, splitBySymbols? f.symbols text = some pieces →
          read text format = .ofOption (f.toDouble? (f.numberText pieces)) := by
        intro text hsplit
        rw [read, hf]
        simp only [bind, Except.bind, hsplit]
        rfl
      exact hread _ hsplit

theorem Monetary.restores {f : MonetaryFormat} (hf : MonetaryFormat.ofString format = .ok f)
    (hn : IsPlaced f.amount.places n) {code shown : String} (hcode : IsCurrencyCode code.toList)
    (hshown : shownCurrency f.style format (.text code) = .ok shown) :
    Restores format f code shown negative n where
  writes := by
    rintro x rfl rfl
    rw [write_value hf hshown (CurrencyStyle.read_of_shown hcode hshown).2.1,
      AmountFormat.writeNumber_eq]
    rfl
  reads := by
    have hseparated := AmountFormat.separated (MonetaryFormat.amount_eq hf)
    obtain ⟨hadmits, -, hcurrency⟩ := CurrencyStyle.read_of_shown hcode hshown
    obtain ⟨texts, hsplit, hnumber, hplace⟩ := MonetaryFormat.split_text hf hadmits
      (AmountFormat.admits_writeNumeral hseparated hn negative)
    refine ⟨texts, hsplit, ?_, ?_⟩
    · rw [hnumber]
      exact AmountFormat.returns_numeral hseparated hn negative
    · have hread : ∀ text, splitBySymbols? f.symbols text = some texts → read text format =
          (Outcome.ofOption (f.amount.toDouble? (f.pieceText .amount texts))).map (value · code) := by
        intro text hsplit
        rw [read, hf]
        simp only [bind, Except.bind, hsplit, hplace, String.ofList_toList, hcurrency]
        cases f.amount.toDouble? (f.pieceText .amount texts) <;> rfl
      exact hread _ hsplit

end

/-- **Numerals come back from their texts** in every format of amounts and in every monetary format
that can show the currency. Only a minus that is a separator of the format is lost. -/
theorem AmountFormat.numerals_return (negative : Bool) (n : List Char) :
    (∀ {format f}, AmountFormat.ofString format = .ok f → IsPlaced f.places n →
      Amount.Restores format f negative n) ∧
    ∀ {format f}, MonetaryFormat.ofString format = .ok f → IsPlaced f.amount.places n →
      ∀ code shown, IsCurrencyCode code.toList →
        Monetary.shownCurrency f.style format (.text code) = .ok shown →
          Monetary.Restores format f code shown negative n :=
  ⟨fun hf hn => Amount.restores hf hn,
    fun hf hn _ _ hcode hshown => Monetary.restores hf hn hcode hshown⟩

/-- A debt of Swiss francs is read as it was written. -/
theorem AmountFormat.numerals_return_debt :
    (∃ x, Decimal.readFloat? "-1234.50" = some x ∧ Amount.read "-1,234.50" "0,0.00" = .ok x) ∧
      ∃ x, Decimal.readFloat? "-1234.50" = some x ∧
        Monetary.read "-1,234.50 CHF" "0,0.00 CCC" = .ok (Monetary.value x "CHF") := by
  have hplaced : IsPlaced 2 "1234.50".toList := Decimal.isPlaced_placed 2 123450
  constructor
  · have hformat : AmountFormat.ofString "0,0.00" = .ok ⟨[], [], some ',', some '.', 2⟩ := by rfl
    obtain ⟨pieces, -, hreturns, hread⟩ := ((numerals_return true _).1 hformat hplaced).reads
    obtain ⟨hplain, x, hx⟩ := hreturns.eq_signed_iff.mpr (by decide)
    rw [hx] at hread
    rw [hplain] at hx
    exact ⟨x, hx, hread⟩
  · have hformat : MonetaryFormat.ofString "0,0.00 CCC" = .ok ⟨⟨[], " CCC".toList, some ',',
        some '.', 2⟩, .code, ([], []), ([(" ".toList, .code)], [])⟩ := by rfl
    obtain ⟨texts, -, hreturns, hread⟩ :=
      ((numerals_return true _).2 hformat hplaced "CHF" "CHF" (by decide) rfl).reads
    obtain ⟨hplain, x, hx⟩ := hreturns.eq_signed_iff.mpr (by decide)
    rw [hx] at hread
    rw [hplain] at hx
    exact ⟨x, hx, hread⟩

/-- **A minus that separates thousands is lost**: minus five is written and read as five. -/
theorem AmountFormat.not_returned_minus :
    AmountFormat.ofString "0-0" = .ok ⟨[], [], some '-', none, 0⟩ ∧ IsPlaced 0 ['5'] ∧
      AmountFormat.text ⟨[], [], some '-', none, 0⟩ true ['5'] = "-5" ∧
      splitBySymbols? (AmountFormat.symbols ⟨[], [], some '-', none, 0⟩) "-5" = some ["-5".toList] ∧
      AmountFormat.numeral ⟨[], [], some '-', none, 0⟩ "-5".toList ≠ signed true ['5'] := by
  refine ⟨by rfl, Decimal.isPlaced_placed 0 5, by rfl, by decide +kernel, by decide⟩

end Covenant
