import Covenant.Proofs.Decimal.Integer

/-!
Numerals that are read as numbers.

* `readInt_eq_none_iff`: a whole number is refused for its length only.
* `exists_of_isNumeral`: a numeral with a sign, a fraction and an exponent is read as a double.
* `readFloat_twoPoints`: a number with a point in front and another one after it is none.
-/

namespace Covenant.Decimal

/-! ### Numerals -/

/-- Digits, and at least one of them. -/
def IsDigits (cs : List Char) : Prop :=
  cs ≠ [] ∧ ∀ c ∈ cs, c.isDigit = true

def IsSign (cs : List Char) : Prop :=
  cs = [] ∨ cs = ['+'] ∨ cs = ['-']

def IsFraction (cs : List Char) : Prop :=
  cs = [] ∨ ∃ ds, IsDigits ds ∧ cs = '.' :: ds

def IsExponent (cs : List Char) : Prop :=
  cs = [] ∨ ∃ e sign ds, (e = 'e' ∨ e = 'E') ∧ IsSign sign ∧ IsDigits ds ∧ cs = e :: (sign ++ ds)

/-- **A numeral**: digits with a sign, a fraction and an exponent, each of which may be
missing. -/
def IsNumeral (cs : List Char) : Prop :=
  ∃ sign whole fraction exponent, IsSign sign ∧ IsDigits whole ∧ IsFraction fraction ∧
    IsExponent exponent ∧ cs = sign ++ (whole ++ (fraction ++ exponent))

variable {cs ds : List Char}

theorem IsDigits.ne {c : Char} (h : IsDigits ds) (hc : c.isDigit = false) : ∀ d ∈ ds, d ≠ c := by
  rintro d hd rfl
  cases hc.symm.trans (h.2 d hd)

theorem IsDigits.digitRun (h : IsDigits ds) :
    digitRun false ds = some (ds.map fun c => c.toNat - 48) :=
  digitRun_of_isDigit h.2 (.inr h.1)

def inNumeral (c : Char) : Bool :=
  c.isDigit || ['+', '-', '.', 'e', 'E'].contains c

theorem not_isBlank_of_inNumeral {c : Char} (h : inNumeral c = true) : Text.isBlank c = false := by
  rcases Bool.or_eq_true_iff.mp h with h | h
  · exact not_isBlank_of_isDigit h
  · have hall : ['+', '-', '.', 'e', 'E'].all (fun d => !Text.isBlank d) = true := by decide
    simpa using List.all_eq_true.mp hall c (List.contains_iff_mem.mp h)

/-- Nothing is cut off a text that is made of the characters of numerals. -/
theorem trim_numeral (h : ∀ c ∈ cs, inNumeral c = true) : Text.trim Text.isBlank cs = cs :=
  trim_eq_self fun c hc => not_isBlank_of_inNumeral (h c hc)

theorem IsDigits.inNumeral (h : IsDigits ds) : ∀ c ∈ ds, inNumeral c = true := fun c hc =>
  Bool.or_eq_true_iff.mpr (.inl (h.2 c hc))

theorem IsSign.inNumeral (h : IsSign cs) : ∀ c ∈ cs, inNumeral c = true := by
  rcases h with rfl | rfl | rfl
  · simp
  · exact List.forall_mem_singleton.mpr rfl
  · exact List.forall_mem_singleton.mpr rfl

theorem IsFraction.inNumeral (h : IsFraction cs) : ∀ c ∈ cs, Decimal.inNumeral c = true := by
  rcases h with rfl | ⟨ds, hds, rfl⟩
  · simp
  · exact List.forall_mem_cons.mpr ⟨by decide, hds.inNumeral⟩

theorem IsExponent.inNumeral (h : IsExponent cs) : ∀ c ∈ cs, Decimal.inNumeral c = true := by
  rcases h with rfl | ⟨e, sign, ds, he, hsign, hds, rfl⟩
  · simp
  · refine List.forall_mem_cons.mpr ⟨?_, List.forall_mem_append.mpr ⟨hsign.inNumeral, hds.inNumeral⟩⟩
    rcases he with rfl | rfl <;> decide

/-- Digits that follow a sign do not look like one. -/
theorem takeSign_digits (h : IsDigits ds) (rest : List Char) :
    takeSign (ds ++ rest) = (false, ds ++ rest) := by
  obtain ⟨d, ds, rfl⟩ := List.exists_cons_of_ne_nil h.1
  have hminus := h.ne (c := '-') rfl d (by simp)
  have hplus := h.ne (c := '+') rfl d (by simp)
  unfold takeSign
  split
  · simp_all
  · simp_all
  · rfl

theorem exists_takeSign {sign : List Char} (hsign : IsSign sign) (h : IsDigits ds)
    (rest : List Char) : ∃ negative, takeSign (sign ++ (ds ++ rest)) = (negative, ds ++ rest) := by
  rcases hsign with rfl | rfl | rfl
  · exact ⟨false, takeSign_digits h rest⟩
  · exact ⟨false, rfl⟩
  · exact ⟨true, rfl⟩

/-! ### Whole numbers -/

/-- **A whole number is refused for its length only.** -/
theorem readInt_eq_none_iff {sign : List Char} (hsign : IsSign sign) (h : IsDigits ds) :
    readInt? (String.ofList (sign ++ ds)) = none ↔ maxDigits < ds.length := by
  have htrim : Text.trim Text.isBlank (sign ++ ds) = sign ++ ds :=
    trim_numeral (List.forall_mem_append.mpr ⟨hsign.inNumeral, h.inNumeral⟩)
  obtain ⟨negative, hsplit⟩ := exists_takeSign hsign h []
  rw [List.append_nil] at hsplit
  simp only [readInt?, String.toList_ofList, htrim, hsplit, h.digitRun]
  simp

/-! ### Doubles -/

/-- A text is broken at the first character of a kind. -/
theorem breakAt_append {p : Char → Bool} {rest : List Char} (hcs : ∀ c ∈ cs, p c = false)
    (hrest : ∀ c ∈ rest.head?, p c = true) : breakAt p (cs ++ rest) = (cs, rest) := by
  have hcs' : ∀ c ∈ cs, (!p c) = true := fun c hc => by rw [hcs c hc, Bool.not_false]
  rw [breakAt, List.takeWhile_append_of_pos hcs', List.dropWhile_append_of_pos hcs']
  cases rest with
  | nil => simp
  | cons c rest =>
    have hc : p c = true := hrest c rfl
    simp [hc]

/-- The point in front of a fraction, which may be missing. -/
theorem IsFraction.head (h : IsFraction cs) : ∀ c ∈ cs.head?, (c == '.') = true := by
  rcases h with rfl | ⟨ds, -, rfl⟩
  · simp
  · simp

theorem IsFraction.digits (h : IsFraction cs) : ∃ ds, digitRunOrNone (cs.drop 1) = some ds := by
  rcases h with rfl | ⟨ds, hds, rfl⟩
  · exact ⟨[], rfl⟩
  · rw [List.drop_one, List.tail_cons, digitRunOrNone, hds.digitRun]
    split
    · exact ⟨_, rfl⟩
    · exact ⟨_, rfl⟩

theorem IsExponent.head (h : IsExponent cs) :
    ∀ c ∈ cs.head?, (c == 'e' || c == 'E') = true := by
  rcases h with rfl | ⟨e, sign, ds, he, -, -, rfl⟩
  · simp
  · simpa using he

/-- **A numeral is read as a double.** -/
theorem exists_of_isNumeral (h : IsNumeral cs) : ∃ x, readFloat? (String.ofList cs) = some x := by
  obtain ⟨sign, whole, fraction, exponent, hsign, hwhole, hfraction, hexponent, rfl⟩ := h
  have htrim : Text.trim Text.isBlank (sign ++ (whole ++ (fraction ++ exponent)))
      = sign ++ (whole ++ (fraction ++ exponent)) := by
    refine trim_numeral ?_
    simp only [List.forall_mem_append]
    exact ⟨hsign.inNumeral, hwhole.inNumeral, hfraction.inNumeral, hexponent.inNumeral⟩
  obtain ⟨negative, hsplit⟩ := exists_takeSign hsign hwhole (fraction ++ exponent)
  have hmantissa : breakAt (fun c => c == 'e' || c == 'E') (whole ++ (fraction ++ exponent))
      = (whole ++ fraction, exponent) := by
    rw [← List.append_assoc]
    refine breakAt_append (List.forall_mem_append.mpr ⟨fun c hc => ?_, fun c hc => ?_⟩)
      hexponent.head
    · simp [hwhole.ne (c := 'e') rfl c hc, hwhole.ne (c := 'E') rfl c hc]
    · rcases hfraction with rfl | ⟨ds, hds, rfl⟩
      · cases hc
      · rcases List.mem_cons.mp hc with rfl | hc
        · rfl
        · simp [hds.ne (c := 'e') rfl c hc, hds.ne (c := 'E') rfl c hc]
  have hpoint : breakAt (· == '.') (whole ++ fraction) = (whole, fraction) :=
    breakAt_append (fun c hc => by simp [hwhole.ne (c := '.') rfl c hc]) hfraction.head
  have hrun : digitRunOrNone whole = some (whole.map fun c => c.toNat - 48) := by
    rw [digitRunOrNone, if_neg (by simpa using hwhole.1), hwhole.digitRun]
  obtain ⟨fs, hfs⟩ := hfraction.digits
  simp only [readFloat?, String.toList_ofList, htrim, hsplit]
  split
  · exact ⟨_, rfl⟩
  · exact ⟨_, rfl⟩
  · exact ⟨_, rfl⟩
  · rw [hmantissa]
    simp only [hpoint, hrun, hfs]
    rcases hexponent with rfl | ⟨e, esign, ds, he, hesign, hds, rfl⟩
    · simp [hwhole.1]
    · obtain ⟨eneg, hexp⟩ := exists_takeSign hesign hds []
      rw [List.append_nil] at hexp
      simp [hwhole.1, hexp, hds.digitRun]

/-- A point is no digit. -/
theorem digitRun_point {whole rest : List Char} (h : ∀ c ∈ whole, c.isDigit = true) (after : Bool) :
    digitRun after (whole ++ '.' :: rest) = none := by
  induction whole generalizing after with
  | nil =>
    have hpoint : Text.digitValue? '.' = none := by decide
    simp [digitRun, hpoint]
  | cons c whole ih =>
    obtain ⟨hc, hwhole⟩ := List.forall_mem_cons.mp h
    have hbar : c ≠ '_' := by
      rintro rfl
      cases hc
    rw [List.cons_append, digitRun, if_neg hbar, digitValue_of_isDigit hc, ih hwhole]
    rfl

theorem head_lower (c : Char) (cs : List Char) :
    (Text.lower (String.ofList (c :: cs))).toList.head? = some c.toLower := by
  simp [Text.lower]

/-- **A number with a point in front and another one after it** is none. -/
theorem readFloat_twoPoints {whole : List Char} (hwhole : IsDigits whole) (h : IsDigits ds) :
    readFloat? (String.ofList ('.' :: (whole ++ '.' :: ds))) = none := by
  have htrim : Text.trim Text.isBlank ('.' :: (whole ++ '.' :: ds)) = '.' :: (whole ++ '.' :: ds) := by
    refine trim_numeral (List.forall_mem_cons.mpr ⟨by decide, List.forall_mem_append.mpr ⟨?_, ?_⟩⟩)
    · exact hwhole.inNumeral
    · exact List.forall_mem_cons.mpr ⟨by decide, h.inNumeral⟩
  have hsplit : takeSign ('.' :: (whole ++ '.' :: ds)) = (false, '.' :: (whole ++ '.' :: ds)) := rfl
  have hmantissa : breakAt (fun c => c == 'e' || c == 'E') ('.' :: (whole ++ '.' :: ds))
      = ('.' :: (whole ++ '.' :: ds), []) := by
    have hbreak := @breakAt_append ('.' :: (whole ++ '.' :: ds)) (fun c => c == 'e' || c == 'E') []
      ?_ (by simp)
    · rwa [List.append_nil] at hbreak
    · have hdigits : ∀ {es}, IsDigits es → ∀ c ∈ es, (c == 'e' || c == 'E') = false :=
        fun hes c hc => by simp [hes.ne (c := 'e') rfl c hc, hes.ne (c := 'E') rfl c hc]
      refine List.forall_mem_cons.mpr ⟨rfl, List.forall_mem_append.mpr ⟨hdigits hwhole, ?_⟩⟩
      exact List.forall_mem_cons.mpr ⟨rfl, hdigits h⟩
  have hpoint : breakAt (· == '.') ('.' :: (whole ++ '.' :: ds))
      = ([], '.' :: (whole ++ '.' :: ds)) := rfl
  have hrun : digitRunOrNone (whole ++ '.' :: ds) = none := by
    rw [digitRunOrNone, if_neg (by simp), digitRun_point hwhole.2]
  have hword : ∀ w : String, w.toList.head? ≠ some '.' →
      Text.lower (String.ofList ('.' :: (whole ++ '.' :: ds))) ≠ w := by
    rintro w hw rfl
    exact hw (head_lower '.' _)
  simp only [readFloat?, String.toList_ofList, htrim, hsplit]
  split
  · exact absurd ‹_› (hword "inf" (by decide))
  · exact absurd ‹_› (hword "infinity" (by decide))
  · exact absurd ‹_› (hword "nan" (by decide))
  · simp [hmantissa, hpoint, digitRunOrNone] at hrun ⊢
    simp [hrun]

end Covenant.Decimal
