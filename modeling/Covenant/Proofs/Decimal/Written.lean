import Covenant.Proofs.Decimal.Numeral
import Covenant.Proofs.Decimal.Shortest
import Covenant.Proofs.Moment.Reading

/-!
The text of doubles.

* `spelled`: the number that a numeral spells. `exists_parts_write`: a layout spells the digits
  that it writes.
* `writeSize_injective`, `write_injective`: sizes and doubles that are written alike are the
  same.
* `exists_mark`: a double is not written like a whole number.
-/

namespace Covenant

namespace Text

theorem digitsValue_append (cs ds : List Char) :
    digitsValue (cs ++ ds) = digitsValue cs * 10 ^ ds.length + digitsValue ds := by
  induction ds using List.reverseRecOn with
  | nil => simp [digitsValue]
  | append_singleton ds d ih =>
    have hlast : ∀ es : List Char, digitsValue (es ++ [d]) = 10 * digitsValue es + (d.toNat - 48) := by
      intro es
      simp [digitsValue]
    rw [← List.append_assoc, hlast, hlast, ih, List.length_append, List.length_singleton, pow_succ]
    ring

/-- Zeros behind a number. -/
theorem digitsValue_append_zeros (ds : List Char) (n : Nat) :
    digitsValue (ds ++ List.replicate n '0') = digitsValue ds * 10 ^ n := by
  have hzeros : digitsValue (List.replicate n '0') = 0 := by
    rw [← List.append_nil (List.replicate n '0'), digitsValue_zeros]
    rfl
  rw [digitsValue_append, hzeros, List.length_replicate, Nat.add_zero]

end Text

namespace Decimal

open Text

/-! ### The number that a numeral spells -/

def signedValue : List Char → Int
  | '-' :: ds => -(digitsValue ds)
  | ds => digitsValue (ds.drop 1)

/-- The number of a numeral in parts: the point is in front of the fraction, and the letter and
the sign are in front of the exponent. -/
def partsValue (whole fraction exponent : List Char) : ℚ :=
  digitsValue (whole ++ fraction.drop 1) *
    10 ^ (signedValue (exponent.drop 1) - (fraction.drop 1).length)

def spelled (cs : List Char) : ℚ :=
  let (mantissa, exponent) := breakAt (· == 'e') cs
  let (whole, fraction) := breakAt (· == '.') mantissa
  partsValue whole fraction exponent

/-- A numeral in parts as layouts write it: with a fraction or an exponent. -/
structure IsParts (whole fraction exponent : List Char) : Prop where
  isDigits : IsDigits whole
  isFraction : IsFraction fraction
  isExponent : exponent = [] ∨ ∃ sign ds, (sign = '+' ∨ sign = '-') ∧ IsDigits ds ∧
    exponent = 'e' :: sign :: ds
  marked : fraction ≠ [] ∨ exponent ≠ []

variable {whole fraction exponent ds : List Char}

theorem IsFraction.ne_e (h : IsFraction fraction) : ∀ c ∈ fraction, (c == 'e') = false := by
  rcases h with rfl | ⟨ds, hds, rfl⟩
  · simp
  · refine List.forall_mem_cons.mpr ⟨rfl, fun c hc => beq_false_of_ne (hds.ne rfl c hc)⟩

theorem IsParts.spelled_eq (h : IsParts whole fraction exponent) :
    spelled (whole ++ fraction ++ exponent) = partsValue whole fraction exponent := by
  have hmantissa : breakAt (· == 'e') (whole ++ fraction ++ exponent) = (whole ++ fraction, exponent) := by
    refine breakAt_append (List.forall_mem_append.mpr
      ⟨fun c hc => beq_false_of_ne (h.isDigits.ne rfl c hc), h.isFraction.ne_e⟩) ?_
    rcases h.isExponent with rfl | ⟨sign, ds, -, -, rfl⟩ <;> simp
  have hpoint : breakAt (· == '.') (whole ++ fraction) = (whole, fraction) :=
    breakAt_append (fun c hc => beq_false_of_ne (h.isDigits.ne rfl c hc)) h.isFraction.head
  rw [spelled, hmantissa]
  dsimp only
  rw [hpoint]

/-! ### Layouts -/

theorem isDigits_toString (n : Nat) : IsDigits (toString n).toList := by
  rw [show (toString n).toList = Nat.toDigits 10 n from Nat.toList_repr]
  exact ⟨Nat.toDigits_ne_nil, fun _ hc => isDigit_of_mem_toDigits hc⟩

theorem digitsValue_toString (n : Nat) : digitsValue (toString n).toList = n :=
  (congrArg digitsValue Nat.toList_repr).trans (digitsValue_toDigits n)

theorem isDigits_zeros_append (n : Nat) (h : IsDigits ds) : IsDigits (List.replicate n '0' ++ ds) := by
  refine ⟨by simp [h.1], List.forall_mem_append.mpr ⟨fun c hc => ?_, h.2⟩⟩
  rw [List.eq_of_mem_replicate hc]
  rfl

/-- The digits of an exponent, two at least. -/
theorem exponentDigits_eq (n : Nat) :
    (if n < 10 then ['0'] else []) ++ (toString n).toList =
      List.replicate (if n < 10 then 1 else 0) '0' ++ (toString n).toList := by
  split <;> rfl

theorem signedValue_sign (n : Int) (zeros : Nat) :
    signedValue ((if n < 0 then '-' else '+') ::
      (List.replicate zeros '0' ++ (toString n.natAbs).toList)) = n := by
  have hdigits : digitsValue (List.replicate zeros '0' ++ (toString n.natAbs).toList) = n.natAbs := by
    rw [digitsValue_zeros, digitsValue_toString]
  split
  · rw [signedValue, hdigits]
    omega
  · rw [signedValue, List.drop_one, List.tail_cons, hdigits]
    · omega
    · simp

/-- With an exponent, one digit is in front of the point. -/
theorem parts_of_exponent {d : Char} (hds : IsDigits (d :: ds)) (e : Int) :
    ∃ whole fraction exponent, IsParts whole fraction exponent ∧
      [d] ++ (if ds.isEmpty then [] else '.' :: ds) ++ ['e', if e < 0 then '-' else '+']
        ++ (if e.natAbs < 10 then ['0'] else []) ++ (toString e.natAbs).toList =
        whole ++ fraction ++ exponent ∧
      partsValue whole fraction exponent = digitsValue (d :: ds) * 10 ^ (e - ds.length) := by
  obtain ⟨hd, htail⟩ := List.forall_mem_cons.mp hds.2
  refine ⟨[d], if ds.isEmpty then [] else '.' :: ds, 'e' :: (if e < 0 then '-' else '+') ::
    (List.replicate (if e.natAbs < 10 then 1 else 0) '0' ++ (toString e.natAbs).toList),
    ⟨⟨by simp, by simpa using hd⟩, ?_, .inr ⟨_, _, ?_, isDigits_zeros_append _ (isDigits_toString _),
      rfl⟩, .inr (by simp)⟩, ?_, ?_⟩
  · cases ds with
    | nil => exact .inl rfl
    | cons c ds => exact .inr ⟨_, ⟨by simp, htail⟩, rfl⟩
  · split <;> simp
  · rw [← exponentDigits_eq]
    simp
  · have hfraction : (if ds.isEmpty then [] else '.' :: ds).drop 1 = ds := by
      cases ds <;> rfl
    rw [partsValue, hfraction, List.drop_one, List.tail_cons, signedValue_sign]
    rfl

/-- Below one, zeros are in front of the digits. -/
theorem parts_of_small (hds : IsDigits ds) (zeros : Nat) :
    ∃ whole fraction exponent, IsParts whole fraction exponent ∧
      '0' :: '.' :: List.replicate zeros '0' ++ ds = whole ++ fraction ++ exponent ∧
      partsValue whole fraction exponent =
        digitsValue ds * 10 ^ (-(zeros : Int) - ds.length) := by
  have hdigits := isDigits_zeros_append zeros hds
  refine ⟨['0'], '.' :: (List.replicate zeros '0' ++ ds), [],
    ⟨⟨by simp, by simp⟩, .inr ⟨_, hdigits, rfl⟩, .inl rfl, .inl (by simp)⟩, by simp, ?_⟩
  have hvalue : digitsValue (['0'] ++ (List.replicate zeros '0' ++ ds)) = digitsValue ds := by
    rw [← List.append_assoc, ← List.replicate_one, List.replicate_append_replicate,
      digitsValue_zeros]
  rw [partsValue, List.drop_one, List.tail_cons, hvalue, List.length_append, List.length_replicate]
  congr 2
  simp [signedValue, digitsValue]
  ring

/-- From one on, the point follows the digits before it. -/
theorem parts_of_large (hds : IsDigits ds) (before : Nat) (hbefore : 0 < before) :
    ∃ whole fraction exponent, IsParts whole fraction exponent ∧
      ds.take before ++ List.replicate (before - ds.length) '0' ++
          '.' :: (if (ds.drop before).isEmpty then ['0'] else ds.drop before) =
        whole ++ fraction ++ exponent ∧
      partsValue whole fraction exponent =
        digitsValue ds * 10 ^ ((before : Int) - ds.length) := by
  have hwhole : IsDigits (ds.take before ++ List.replicate (before - ds.length) '0') := by
    refine ⟨?_, List.forall_mem_append.mpr ⟨fun c hc => hds.2 c (List.mem_of_mem_take hc), fun c hc => ?_⟩⟩
    · have := List.length_pos_iff.mpr hds.1
      simp only [ne_eq, List.append_eq_nil_iff, List.take_eq_nil_iff, not_and_or, not_or]
      exact .inl ⟨hbefore.ne', hds.1⟩
    · rw [List.eq_of_mem_replicate hc]
      rfl
  have hfraction : IsDigits (if (ds.drop before).isEmpty then ['0'] else ds.drop before) := by
    split
    · exact ⟨by simp, by simp⟩
    · rename_i hne
      exact ⟨by simpa using hne, fun c hc => hds.2 c (List.mem_of_mem_drop hc)⟩
  refine ⟨_, _, [], ⟨hwhole, .inr ⟨_, hfraction, rfl⟩, .inl rfl, .inl (by simp)⟩,
    (List.append_nil _).symm, ?_⟩
  rw [partsValue, List.drop_one, List.tail_cons]
  rcases Nat.lt_or_ge before ds.length with hlt | hle
  · have hne : (ds.drop before).isEmpty = false := by simpa using hlt
    rw [hne, Nat.sub_eq_zero_of_le hlt.le, List.replicate_zero, List.append_nil, if_neg (by simp),
      List.take_append_drop, List.length_drop, Nat.cast_sub hlt.le]
    congr 2
    simp [signedValue, digitsValue]
  · obtain ⟨k, rfl⟩ := Nat.exists_eq_add_of_le hle
    rw [List.drop_of_length_le hle, List.take_of_length_le hle, Nat.add_sub_cancel_left,
      List.isEmpty_nil, if_pos rfl, List.append_assoc, ← List.replicate_succ',
      digitsValue_append_zeros, List.length_singleton]
    push_cast
    rw [mul_assoc, ← zpow_natCast, ← zpow_add₀ (by norm_num)]
    congr 2
    simp [signedValue, digitsValue]

/-- **A layout** spells the digits that it writes. -/
theorem exists_parts_write (n : Layout) (hds : IsDigits ds) (e : Int) :
    ∃ whole fraction exponent, IsParts whole fraction exponent ∧
      n.write ds e = whole ++ fraction ++ exponent ∧
      partsValue whole fraction exponent = digitsValue ds * 10 ^ (e + 1 - ds.length) := by
  unfold Layout.write
  split
  · obtain ⟨d, ds, rfl⟩ := List.exists_cons_of_ne_nil hds.1
    obtain ⟨whole, fraction, exponent, hparts, htext, hvalue⟩ := parts_of_exponent hds e
    refine ⟨whole, fraction, exponent, hparts, htext, hvalue.trans ?_⟩
    congr 2
    push_cast [List.length_cons]
    ring
  split
  · obtain ⟨whole, fraction, exponent, hparts, htext, hvalue⟩ := parts_of_small hds (e.natAbs - 1)
    refine ⟨whole, fraction, exponent, hparts, htext, hvalue.trans ?_⟩
    congr 2
    omega
  · obtain ⟨whole, fraction, exponent, hparts, htext, hvalue⟩ :=
      parts_of_large hds (e.toNat + 1) (Nat.succ_pos _)
    refine ⟨whole, fraction, exponent, hparts, htext, hvalue.trans ?_⟩
    congr 2
    omega

/-! ### Sizes -/

theorem eq_append_zeros (cs : List Char) :
    ∃ k, cs = (cs.reverse.dropWhile (· == '0')).reverse ++ List.replicate k '0' := by
  have hzeros : (cs.reverse.takeWhile (· == '0')).reverse =
      List.replicate (cs.reverse.takeWhile (· == '0')).length '0' := by
    rw [List.eq_replicate_iff, List.length_reverse]
    refine ⟨rfl, fun c hc => ?_⟩
    simpa using List.mem_takeWhile_imp (List.mem_reverse.mp hc)
  refine ⟨(cs.reverse.takeWhile (· == '0')).length, ?_⟩
  rw [← hzeros, ← List.reverse_append, List.takeWhile_append_dropWhile, List.reverse_reverse]

/-- **Digits without zeros at the end** write the number without factors of ten. -/
theorem significant_spec {d : Nat} (hd : d ≠ 0) : IsDigits (significant d) ∧
    ∃ k, (toString d).toList.length = (significant d).length + k ∧
      d = digitsValue (significant d) * 10 ^ k := by
  have hdigits := isDigits_toString d
  have hvalue := digitsValue_toString d
  unfold significant
  generalize (toString d).toList = cs at hdigits hvalue
  obtain ⟨k, hcs⟩ := eq_append_zeros cs
  split
  · rename_i hnil
    rw [hcs, hnil, digitsValue_append_zeros] at hvalue
    exact absurd (hvalue.symm.trans (by simp [digitsValue])) hd
  · rename_i hne
    generalize (cs.reverse.dropWhile (· == '0')).reverse = es at hcs hne
    subst hcs
    refine ⟨⟨hne, fun c hc => hdigits.2 c (List.mem_append_left _ hc)⟩, k, by simp, ?_⟩
    rw [← hvalue, digitsValue_append_zeros]

/-- **The text of a size** is a numeral that spells its digits. -/
theorem exists_parts_writeSize {b : Binary} (hb : b.Proper) (hne : b.mantissa ≠ 0) :
    ∃ whole fraction exponent, IsParts whole fraction exponent ∧
      writeSize b = whole ++ fraction ++ exponent ∧
      partsValue whole fraction exponent = Binary.decimal (shortest b) := by
  obtain ⟨hdigits, k, hlength, hvalue⟩ := significant_spec (Binary.shortest_spec hb hne).2
  obtain ⟨whole, fraction, exponent, hparts, htext, hspelled⟩ := exists_parts_write {} hdigits
    ((shortest b).2 + (toString (shortest b).1).toList.length - 1)
  refine ⟨whole, fraction, exponent, hparts, ?_, hspelled.trans ?_⟩
  · rw [writeSize, if_neg hne]
    exact htext
  · have hdecimal : ((shortest b).1 : ℚ) =
        digitsValue (significant (shortest b).1) * 10 ^ (k : Int) := by
      rw [zpow_natCast]
      exact_mod_cast hvalue
    rw [Binary.decimal, hdecimal, mul_assoc, ← zpow_add₀ (by norm_num), hlength]
    congr 2
    push_cast
    ring

theorem isParts_zero : IsParts ['0'] ['.', '0'] [] :=
  ⟨⟨by simp, by simp⟩, .inr ⟨['0'], ⟨by simp, by simp⟩, rfl⟩, .inl rfl, .inl (by simp)⟩

/-- The text of any size is a numeral. -/
theorem writeSize_parts {b : Binary} (hb : b.Proper) :
    ∃ whole fraction exponent, IsParts whole fraction exponent ∧
      writeSize b = whole ++ fraction ++ exponent := by
  by_cases hne : b.mantissa = 0
  · refine ⟨_, _, _, isParts_zero, ?_⟩
    rw [writeSize, if_pos hne]
    rfl
  · obtain ⟨whole, fraction, exponent, hparts, htext, -⟩ := exists_parts_writeSize hb hne
    exact ⟨whole, fraction, exponent, hparts, htext⟩

/-- The number that the text of a size spells. -/
theorem spelled_writeSize {b : Binary} (hb : b.Proper) :
    spelled (writeSize b) = if b.mantissa = 0 then 0 else Binary.decimal (shortest b) := by
  by_cases hne : b.mantissa = 0
  · rw [writeSize, if_pos hne, if_pos hne]
    exact isParts_zero.spelled_eq.trans (by simp [partsValue, digitsValue])
  · obtain ⟨whole, fraction, exponent, hparts, htext, hvalue⟩ := exists_parts_writeSize hb hne
    rw [htext, hparts.spelled_eq, hvalue, if_neg hne]

theorem decimal_shortest_ne_zero {b : Binary} (hb : b.Proper) (hne : b.mantissa ≠ 0) :
    Binary.decimal (shortest b) ≠ 0 :=
  mul_ne_zero (Nat.cast_ne_zero.mpr (Binary.shortest_spec hb hne).2) (by positivity)

/-- **Sizes that are written alike** are the same. -/
theorem writeSize_injective {b c : Binary} (hb : b.Proper) (hc : c.Proper)
    (h : writeSize b = writeSize c) : b = c := by
  have hspelled := congrArg spelled h
  rw [spelled_writeSize hb, spelled_writeSize hc] at hspelled
  split_ifs at hspelled with hbzero hczero hczero
  · exact hb.eq_of_zero hc hbzero hczero
  · exact absurd hspelled.symm (decimal_shortest_ne_zero hc hczero)
  · exact absurd hspelled (decimal_shortest_ne_zero hb hbzero)
  · exact Binary.eq_of_shortest hb hc hbzero hczero hspelled

/-! ### Doubles -/

theorem proper_ofFloat (x : Float) : (Binary.ofFloat x).Proper :=
  Binary.proper_ofBits _

theorem Binary.mod_eq_of_ofBits {m n : Nat} (h : ofBits m = ofBits n) : m % signBit = n % signBit := by
  have hunit : unit = 4503599627370496 := by decide
  have hsign : signBit = 9223372036854775808 := by decide
  unfold ofBits at h
  rw [hunit] at h
  rw [hsign]
  dsimp only at h
  split_ifs at h <;> simp only [Binary.mk.injEq, Int.ofNat_eq_natCast] at h <;> omega

/-- **Sign and size** determine a double. -/
theorem eq_of_ofFloat {x y : Float} (hsign : isNegative x = isNegative y)
    (hsize : Binary.ofFloat x = Binary.ofFloat y) : x = y := by
  have hlow := Binary.mod_eq_of_ofBits hsize
  have hbit : Binary.signBit = 9223372036854775808 := by decide
  have hx := x.toBits.toNat_lt
  have hy := y.toBits.toNat_lt
  rw [isNegative, isNegative, decide_eq_decide] at hsign
  rw [← Float.toBits_inj, ← UInt64.toNat_inj]
  rw [hbit] at hlow hsign
  omega

/-- The size that an infinite double would have. -/
theorem ofFloat_of_isInf {x : Float} (h : x.isInf = true) :
    Binary.ofFloat x = ⟨Binary.unit, 972⟩ := by
  have hunpack : x.toModel.unpack.isInf = true := h
  unfold Float.Model.unpack Float.Model.UnpackedFloat.unpack at hunpack
  dsimp only at hunpack
  split_ifs at hunpack with hexponent hmantissa
  · rw [Float.Model.UnpackedFloat.unpackExponent_def, ← BitVec.toNat_inj,
      BitVec.extractLsb'_toNat] at hexponent
    rw [Float.Model.UnpackedFloat.unpackMantissa_def, ← BitVec.toNat_inj,
      BitVec.extractLsb'_toNat] at hmantissa
    have hbits : x.toModel.toBits = x.toBits := rfl
    have hunit : Binary.unit = 4503599627370496 := by decide
    have hfield : x.toBits.toNat / Binary.unit % 2048 = 2047 := by
      simpa [hunit, hbits, Nat.shiftRight_eq_div_pow] using hexponent
    have hfraction : x.toBits.toNat % Binary.unit = 0 := by
      simpa [hunit, hbits] using hmantissa
    rw [Binary.ofFloat, Binary.ofBits, hfield, hfraction]
    rfl
  all_goals cases hunpack
/-- The text of a size begins with a digit. -/
theorem IsParts.head (h : IsParts whole fraction exponent) :
    ∃ d ds, whole ++ fraction ++ exponent = d :: ds ∧ d.isDigit = true := by
  obtain ⟨d, ds, rfl⟩ := List.exists_cons_of_ne_nil h.isDigits.1
  exact ⟨d, ds ++ fraction ++ exponent, by simp, h.isDigits.2 d (by simp)⟩

def unsigned (x : Float) : List Char :=
  if x.isInf then "Infinity".toList else writeSize (Binary.ofFloat x)

theorem toList_write (x : Float) : (write "Infinity" "NaN" x).toList =
    if x.isNaN then ['N', 'a', 'N'] else (if isNegative x then ['-'] else []) ++ unsigned x := by
  unfold write unsigned
  dsimp only
  split_ifs <;> simp

theorem unsigned_head (x : Float) :
    ∃ c cs, unsigned x = c :: cs ∧ (c = 'I' ∨ c.isDigit = true) := by
  unfold unsigned
  split
  · exact ⟨'I', "nfinity".toList, rfl, .inl rfl⟩
  · obtain ⟨whole, fraction, exponent, hparts, htext⟩ := writeSize_parts (proper_ofFloat x)
    obtain ⟨d, ds, hhead, hd⟩ := hparts.head
    exact ⟨d, ds, htext.trans hhead, .inr hd⟩

/-- Doubles of one sign that are written alike are the same. -/
theorem eq_of_unsigned {x y : Float} (hsign : isNegative x = isNegative y)
    (h : unsigned x = unsigned y) : x = y := by
  have hdigit : ∀ z : Float, ∀ ds, writeSize (Binary.ofFloat z) ≠ 'I' :: ds := by
    intro z ds hds
    obtain ⟨whole, fraction, exponent, hparts, htext⟩ := writeSize_parts (proper_ofFloat z)
    obtain ⟨d, es, hhead, hd⟩ := hparts.head
    rw [htext, hhead, List.cons.injEq] at hds
    rw [hds.1] at hd
    cases hd
  refine eq_of_ofFloat hsign ?_
  unfold unsigned at h
  split_ifs at h with hx hy hy
  · rw [ofFloat_of_isInf hx, ofFloat_of_isInf hy]
  · exact absurd h.symm (hdigit y _)
  · exact absurd h (hdigit x _)
  · exact writeSize_injective (proper_ofFloat x) (proper_ofFloat y) h

/-- The first character tells what kind of double is written, and its sign. -/
theorem head_write (x : Float) : ∃ c, (write "Infinity" "NaN" x).toList.head? = some c ∧
    (c = 'N' ↔ x = Float.nan) ∧ (x ≠ Float.nan → (c = '-' ↔ isNegative x = true)) := by
  obtain ⟨c, cs, hcs, hc⟩ := unsigned_head x
  have hN : c ≠ 'N' := by rintro rfl; simp at hc
  have hminus : c ≠ '-' := by rintro rfl; simp at hc
  rw [toList_write, Float.isNaN_eq_decide_eq_nan]
  by_cases hnan : x = Float.nan
  · exact ⟨'N', by simp [hnan], by simp [hnan], fun h => absurd hnan h⟩
  · cases hsign : isNegative x
    · exact ⟨c, by simp [hnan, hcs], by simp [hnan, hN], fun _ => by simp [hminus]⟩
    · exact ⟨'-', by simp [hnan], by simp [hnan], fun _ => by simp⟩

/-- **Doubles that are written alike** are the same. -/
theorem write_injective {x y : Float} (h : write "Infinity" "NaN" x = write "Infinity" "NaN" y) :
    x = y := by
  obtain ⟨c, hc, hxnan, hxsign⟩ := head_write x
  obtain ⟨d, hd, hynan, hysign⟩ := head_write y
  obtain rfl : c = d := Option.some.inj (hc.symm.trans ((congrArg (·.toList.head?) h).trans hd))
  by_cases hnan : c = 'N'
  · exact (hxnan.mp hnan).trans (hynan.mp hnan).symm
  · have hx : x ≠ Float.nan := fun hx => hnan (hxnan.mpr hx)
    have hy : y ≠ Float.nan := fun hy => hnan (hynan.mpr hy)
    have hsign : isNegative x = isNegative y :=
      Bool.eq_iff_iff.mpr ((hxsign hx).symm.trans (hysign hy))
    have htext := congrArg String.toList h
    rw [toList_write, toList_write, Float.isNaN_eq_decide_eq_nan, Float.isNaN_eq_decide_eq_nan,
      decide_eq_false hx, decide_eq_false hy, hsign] at htext
    exact eq_of_unsigned hsign (List.append_cancel_left htext)

/-! ### The characters of doubles -/

theorem IsParts.inNumeral (h : IsParts whole fraction exponent) :
    ∀ c ∈ whole ++ fraction ++ exponent, inNumeral c = true := by
  refine List.forall_mem_append.mpr ⟨List.forall_mem_append.mpr
    ⟨h.isDigits.inNumeral, h.isFraction.inNumeral⟩, ?_⟩
  rcases h.isExponent with rfl | ⟨sign, ds, hsign, hds, rfl⟩
  · simp
  · refine List.forall_mem_cons.mpr ⟨rfl, List.forall_mem_cons.mpr ⟨?_, hds.inNumeral⟩⟩
    rcases hsign with rfl | rfl <;> rfl

def inDouble (c : Char) : Bool :=
  inNumeral c || "NaNInfinity".toList.contains c

theorem inDouble_of_mem_unsigned {x : Float} {c : Char} (hc : c ∈ unsigned x) :
    inDouble c = true := by
  unfold unsigned at hc
  split at hc
  · have hall : "Infinity".toList.all inDouble = true := by decide
    exact List.all_eq_true.mp hall c hc
  · obtain ⟨whole, fraction, exponent, hparts, htext⟩ := writeSize_parts (proper_ofFloat x)
    exact Bool.or_eq_true_iff.mpr (.inl (hparts.inNumeral c (htext ▸ hc)))

theorem inDouble_of_mem_write {x : Float} {c : Char} (hc : c ∈ (write "Infinity" "NaN" x).toList) :
    inDouble c = true := by
  rw [toList_write] at hc
  split at hc
  · have hall : ['N', 'a', 'N'].all inDouble = true := by decide
    exact List.all_eq_true.mp hall c hc
  · rcases List.mem_append.mp hc with hc | hc
    · split at hc
      · rw [List.mem_singleton.mp hc]
        decide
      · cases hc
    · exact inDouble_of_mem_unsigned hc

theorem IsParts.exists_mark (h : IsParts whole fraction exponent) :
    ∃ c ∈ whole ++ fraction ++ exponent, c.isDigit = false ∧ c ≠ '-' := by
  rcases h.isFraction with rfl | ⟨ds, -, rfl⟩
  · obtain ⟨sign, ds, -, -, rfl⟩ := h.isExponent.resolve_left (h.marked.resolve_left (by simp))
    exact ⟨'e', by simp, by decide, by decide⟩
  · exact ⟨'.', by simp, by decide, by decide⟩

/-- A double is not written like a whole number. -/
theorem exists_mark (x : Float) :
    ∃ c ∈ (write "Infinity" "NaN" x).toList, c.isDigit = false ∧ c ≠ '-' := by
  have hmark : ∃ c ∈ unsigned x, c.isDigit = false ∧ c ≠ '-' := by
    unfold unsigned
    split
    · exact ⟨'I', by simp, by decide, by decide⟩
    · obtain ⟨whole, fraction, exponent, hparts, htext⟩ := writeSize_parts (proper_ofFloat x)
      exact htext ▸ hparts.exists_mark
  rw [toList_write]
  split
  · exact ⟨'N', by simp, by decide, by decide⟩
  · obtain ⟨c, hc, hmark⟩ := hmark
    exact ⟨c, List.mem_append_right _ hc, hmark⟩

end Decimal

end Covenant
