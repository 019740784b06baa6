import Covenant.Proofs.Format.Dates
import Covenant.Proofs.Format.Number
import Covenant.Proofs.Schema.FormatRules

/-!
Reading texts in formats.

* `Outcome.Answered`: a result that is a value, or tells that a text cannot be read.
* `Formatted.Misread`: the texts that match a format and are neither read nor refused: dates with
  an offset of a day or more, and negative numbers where the sign is the decimal separator.
* `Formatted.read_cases`: every other text is read or refused.
-/

namespace Covenant

/-- **A value, or the fault that a text cannot be read.** -/
def Outcome.Answered {α : Type} (o : Outcome α) : Prop :=
  (∃ a, o = .ok a) ∨ ∃ r, o = .fail (.reading r)

theorem Outcome.Answered.map {α β : Type} {o : Outcome α} (h : o.Answered) (g : α → β) :
    Outcome.Answered (o.map g) := by
  rcases h with ⟨a, rfl⟩ | ⟨r, rfl⟩
  · exact .inl ⟨g a, rfl⟩
  · exact .inr ⟨r, rfl⟩

/-! ### Pieces of a text -/

section

variable {α β : Type} {R : α → β → Prop}

theorem forall₂_getD {as : List α} {a : α} {as' : List α} {bs : List β} {b : β}
    (h : List.Forall₂ R (as ++ a :: as') bs) : R a (bs.getD as.length b) := by
  induction as generalizing bs with
  | nil =>
    obtain ⟨c, bs, hc, -, rfl⟩ := List.forall₂_cons_left_iff.mp h
    exact hc
  | cons x as ih =>
    obtain ⟨c, bs, -, hrest, rfl⟩ := List.forall₂_cons_left_iff.mp h
    rw [List.length_cons, List.getD_cons_succ]
    exact ih hrest

theorem forall₂_find [DecidableEq α] {as : List α} {bs : List β} (h : List.Forall₂ R as bs) {a : α}
    (ha : a ∈ as) : ∃ b, (as.zip bs).find? (fun x => x.1 == a) = some (a, b) ∧ R a b := by
  induction h with
  | nil => cases ha
  | @cons x b as bs hx _ ih =>
    rw [List.zip_cons_cons]
    by_cases hxa : x = a
    · subst hxa
      exact ⟨b, List.find?_cons_of_pos (by simp), hx⟩
    · obtain ⟨b', hfind, hb'⟩ := ih ((List.mem_cons.mp ha).resolve_left (Ne.symm hxa))
      exact ⟨b', by rwa [List.find?_cons_of_neg (by simpa using hxa)], hb'⟩

end

/-! ### Dates -/

/-- **A date that is neither read nor refused**: its year and its day exist, but its offset is a
day or more, or that of the clock or the zone is if it has none. -/
def DateTime.Misread (text format : String) (clock : Option Int) (zone : Zone) : Prop :=
  ∃ f pieces, DateFormat.ofString format = .ok f ∧ splitBySymbols? f.symbols text = some pieces ∧
    (f.collect pieces).YearInRange ∧ (f.collect pieces).DayInRange ∧
      86400 ≤ ((f.collect pieces).offset.getD
        (clock.getD (zone.offsetAt (f.collect pieces)))).natAbs

theorem DateTime.misread_iff {text format : String} {clock : Option Int} {zone : Zone}
    {f : DateFormat} (hf : DateFormat.ofString format = .ok f) {pieces : List (List Char)}
    (hsplit : splitBySymbols? f.symbols text = some pieces) : DateTime.Misread text format clock zone ↔
      (f.collect pieces).YearInRange ∧ (f.collect pieces).DayInRange ∧
        86400 ≤ ((f.collect pieces).offset.getD
          (clock.getD (zone.offsetAt (f.collect pieces)))).natAbs := by
  constructor
  · rintro ⟨f', pieces', hf', hsplit', h⟩
    cases hf.symm.trans hf'
    cases hsplit.symm.trans hsplit'
    exact h
  · exact fun h => ⟨f, pieces, hf, hsplit, h⟩

theorem DateTime.read_cases {format : String} {f : DateFormat}
    (hf : DateFormat.ofString format = .ok f) (text : String) (clock : Option Int) (zone : Zone) :
    (¬ DateTime.Misread text format clock zone ∧ (DateTime.read text format clock zone).Answered) ∨
      DateTime.Misread text format clock zone ∧
        DateTime.read text format clock zone = .fail .undefined := by
  rw [DateTime.read_eq hf]
  cases hsplit : splitBySymbols? f.symbols text with
  | none =>
    refine .inl ⟨?_, .inr ⟨_, rfl⟩⟩
    rintro ⟨f', pieces, hf', hsplit', -⟩
    cases hf.symm.trans hf'
    cases hsplit.symm.trans hsplit'
  | some pieces =>
    rw [DateTime.misread_iff hf hsplit]
    rcases DateTime.settle_cases text format (DateTime.withClock (f.collect pieces) clock zone) with
      ⟨hnot, why, h⟩ | ⟨hyear, hday, hoffset, h⟩ | ⟨-, -, hoffset, h⟩
    · exact .inl ⟨fun hmisread => hnot ⟨hmisread.1, hmisread.2.1⟩, .inr ⟨_, h⟩⟩
    · exact .inr ⟨⟨hyear, hday, hoffset⟩, h⟩
    · exact .inl ⟨fun hmisread => absurd hoffset (Nat.not_lt.mpr hmisread.2.2), .inl ⟨_, h⟩⟩

/-! ### Amounts -/

namespace AmountFormat

variable {f : AmountFormat} {text : String} {pieces : List (List Char)}

def numberText (f : AmountFormat) (pieces : List (List Char)) : List Char :=
  pieces.getD (affix f.before).length []

theorem admits_numberText (h : splitBySymbols? f.symbols text = some pieces) :
    f.number.toPattern.Admits (f.numberText pieces) := by
  obtain ⟨hall, -⟩ := Pattern.admits_of_split h
  rw [List.forall₂_map_left_iff, symbols, List.append_assoc, List.singleton_append] at hall
  exact forall₂_getD hall

end AmountFormat

/-- **A negative number that is neither read nor refused**, since its sign is taken for the
decimal separator. -/
def Amount.Misread (text format : String) : Prop :=
  ∃ f pieces, AmountFormat.ofString format = .ok f ∧ splitBySymbols? f.symbols text = some pieces ∧
    f.decimal = some '-' ∧ (f.numberText pieces).head? = some '-'

theorem Amount.misread_iff {text format : String} {f : AmountFormat}
    (hf : AmountFormat.ofString format = .ok f) {pieces : List (List Char)}
    (hsplit : splitBySymbols? f.symbols text = some pieces) :
    Amount.Misread text format ↔ f.toDouble? (f.numberText pieces) = none := by
  rw [AmountFormat.toDouble_eq_none_iff (AmountFormat.separated hf)
    (AmountFormat.admits_numberText hsplit)]
  constructor
  · rintro ⟨f', pieces', hf', hsplit', h⟩
    cases hf.symm.trans hf'
    cases hsplit.symm.trans hsplit'
    exact h
  · exact fun h => ⟨f, pieces, hf, hsplit, h⟩

theorem Amount.read_cases {format : String} {f : AmountFormat}
    (hf : AmountFormat.ofString format = .ok f) (text : String) :
    (¬ Amount.Misread text format ∧ (Amount.read text format).Answered) ∨
      Amount.Misread text format ∧ Amount.read text format = .fail .undefined := by
  unfold Amount.read
  rw [hf]
  simp only [bind, Except.bind]
  split
  · rename_i hsplit
    refine .inl ⟨?_, .inr ⟨_, rfl⟩⟩
    rintro ⟨f', pieces, hf', hsplit', -⟩
    cases hf.symm.trans hf'
    cases hsplit.symm.trans hsplit'
  · rename_i pieces hsplit
    rw [Amount.misread_iff hf hsplit]
    change _ ∧ Outcome.Answered (.ofOption (f.toDouble? (f.numberText pieces))) ∨
      _ ∧ Outcome.ofOption (f.toDouble? (f.numberText pieces)) = _
    cases f.toDouble? (f.numberText pieces) with
    | none => exact .inr ⟨rfl, rfl⟩
    | some x => exact .inl ⟨by simp, .inl ⟨x, rfl⟩⟩

/-! ### Amounts of money -/

namespace MonetaryFormat

theorem amount_eq {format : String} {f : MonetaryFormat} (h : ofString format = .ok f) :
    AmountFormat.ofString format = .ok f.amount := by
  obtain ⟨amount, hamount, h⟩ := Outcome.bind_eq_ok.mp h
  simp only at h
  split at h
  · cases h
    exact hamount
  · cases h

theorem admits_pieceText {f : MonetaryFormat} {text : String} {texts : List (List Char)}
    (h : splitBySymbols? f.symbols text = some texts) :
    f.amount.number.toPattern.Admits (f.pieceText .amount texts) := by
  obtain ⟨hall, -⟩ := Pattern.admits_of_split h
  rw [symbols, List.map_map, List.forall₂_map_left_iff] at hall
  obtain ⟨cs, hfind, hcs⟩ := forall₂_find hall (a := .amount) (by simp [layout])
  rw [pieceText, hfind]
  exact hcs

end MonetaryFormat

/-- **A negative amount that is neither read nor refused**, since its sign is taken for the
decimal separator. -/
def Monetary.Misread (text format : String) : Prop :=
  ∃ f texts, MonetaryFormat.ofString format = .ok f ∧ splitBySymbols? f.symbols text = some texts ∧
    f.amount.decimal = some '-' ∧ (f.pieceText .amount texts).head? = some '-'

theorem Monetary.misread_iff {text format : String} {f : MonetaryFormat}
    (hf : MonetaryFormat.ofString format = .ok f) {texts : List (List Char)}
    (hsplit : splitBySymbols? f.symbols text = some texts) :
    Monetary.Misread text format ↔ f.amount.toDouble? (f.pieceText .amount texts) = none := by
  rw [AmountFormat.toDouble_eq_none_iff (AmountFormat.separated (MonetaryFormat.amount_eq hf))
    (MonetaryFormat.admits_pieceText hsplit)]
  constructor
  · rintro ⟨f', texts', hf', hsplit', h⟩
    cases hf.symm.trans hf'
    cases hsplit.symm.trans hsplit'
    exact h
  · exact fun h => ⟨f, texts, hf, hsplit, h⟩

theorem Monetary.read_cases {format : String} {f : MonetaryFormat}
    (hf : MonetaryFormat.ofString format = .ok f) (text : String) :
    (¬ Monetary.Misread text format ∧ (Monetary.read text format).Answered) ∨
      Monetary.Misread text format ∧ Monetary.read text format = .fail .undefined := by
  unfold Monetary.read
  rw [hf]
  simp only [bind, Except.bind]
  split
  · rename_i hsplit
    refine .inl ⟨?_, .inr ⟨_, rfl⟩⟩
    rintro ⟨f', texts, hf', hsplit', -⟩
    cases hf.symm.trans hf'
    cases hsplit.symm.trans hsplit'
  · rename_i texts hsplit
    rw [Monetary.misread_iff hf hsplit]
    cases f.amount.toDouble? (f.pieceText .amount texts) with
    | none => exact .inr ⟨rfl, rfl⟩
    | some x => exact .inl ⟨by simp, .inl ⟨_, rfl⟩⟩

/-! ### Formats by type -/

namespace Formatted

/-- **A text that is neither read nor refused** in a format. -/
def Misread (k : Formatted) (text format : String) (ctx : ReadingContext) : Prop :=
  match k with
  | .date => DateTime.Misread text format ctx.clock ctx.zone
  | .amount => Amount.Misread text format
  | .monetary => Monetary.Misread text format

/-- The rule of a format has one alternative, of tokens. -/
theorem tokens_of_rule {k : Formatted} {format : String} {r : Rule} (h : k.rule format = .ok r) :
    ∃ symbols, r.alternatives = [symbols] ∧
      ∀ x ∈ symbols, x.kind ≠ .rule ∧ x.cardinality = .one := by
  cases k with
  | date =>
    obtain ⟨f, -, h⟩ := Outcome.bind_eq_ok.mp h
    cases h
    refine ⟨_, rfl, fun x hx => ?_⟩
    obtain ⟨t, -, rfl⟩ := List.mem_map.mp hx
    exact ⟨t.symbol_kind, by cases t <;> rfl⟩
  | amount =>
    obtain ⟨f, -, h⟩ := Outcome.bind_eq_ok.mp h
    cases h
    have haffix : ∀ cs, ∀ x ∈ AmountFormat.affix cs, x.kind ≠ .rule ∧ x.cardinality = .one := by
      intro cs x hx
      refine ⟨AmountFormat.affix_kind x hx, ?_⟩
      unfold AmountFormat.affix at hx
      split at hx
      · cases hx
      · rw [List.mem_singleton.mp hx]
        rfl
    refine ⟨_, rfl, List.forall_mem_append.mpr ⟨List.forall_mem_append.mpr ⟨haffix _, ?_⟩, haffix _⟩⟩
    exact List.forall_mem_singleton.mpr ⟨by simp [AmountFormat.number, Symbol.pattern], rfl⟩
  | monetary =>
    obtain ⟨f, -, h⟩ := Outcome.bind_eq_ok.mp h
    cases h
    refine ⟨_, rfl, fun x hx => ?_⟩
    obtain ⟨p, -, rfl⟩ := List.mem_map.mp hx
    cases p with
    | literal cs => exact ⟨by simp [MonetaryFormat.symbol, Symbol.literal], rfl⟩
    | currency => exact ⟨by simp [MonetaryFormat.symbol, Symbol.pattern], rfl⟩
    | amount => exact ⟨by simp [MonetaryFormat.symbol, AmountFormat.number, Symbol.pattern], rfl⟩

/-- **A text is read or refused** in a format for which there is a rule, unless it is
misread. -/
theorem read_cases {k : Formatted} {format : String} {r : Rule} (h : k.rule format = .ok r)
    (text : String) (ctx : ReadingContext) :
    (¬ k.Misread text format ctx ∧ (k.read text format ctx).Answered) ∨
      k.Misread text format ctx ∧ k.read text format ctx = .fail .undefined := by
  cases k with
  | date =>
    obtain ⟨f, hf, -⟩ := Outcome.bind_eq_ok.mp h
    refine (DateTime.read_cases hf text ctx.clock ctx.zone).imp (And.imp_right fun h => h.map _)
      (And.imp_right fun h => ?_)
    rw [read, h]
    rfl
  | amount =>
    obtain ⟨f, hf, -⟩ := Outcome.bind_eq_ok.mp h
    refine (Amount.read_cases hf text).imp (And.imp_right fun h => h.map _)
      (And.imp_right fun h => ?_)
    rw [read, h]
    rfl
  | monetary =>
    obtain ⟨f, hf, -⟩ := Outcome.bind_eq_ok.mp h
    exact Monetary.read_cases hf text

end Formatted

end Covenant
