import Covenant.Decimal.Shortest
import Covenant.Proofs.Text.Basic

/-!
The digits of doubles.

The search for the shortest digits is exact arithmetic on quotients, so it is proved in
rational numbers.

* `Interval.holds_iff`: what lies in an interval, in rational numbers.
* `Binary.eq_of_within`: the intervals of different sizes have nothing in common.
* `Interval.magnitude_le`, `Binary.start_le`: the search starts at the magnitude of the size.
* `Binary.shortest_spec`: eighteen digits always suffice, so the digits that are found are not zero
  and lie in the interval.
* `Binary.eq_of_shortest`: the digits determine the size.
-/

namespace Covenant.Decimal

/-! ### Quotients -/

/-- The number that a numerator and a denominator stand for. -/
def quotient (s : Nat × Nat) : ℚ :=
  s.1 / s.2

/-- Scaling a fraction by a power of the base, above or below the line. -/
theorem quotient_scale (b n d : Nat) (e : Int) :
    quotient (if e < 0 then (n, d * Nat.pow b e.natAbs) else (n * Nat.pow b e.natAbs, d)) =
      quotient (n, d) * (b : ℚ) ^ e := by
  split
  · rename_i he
    obtain ⟨k, rfl⟩ : ∃ k : Nat, e = -k := ⟨e.natAbs, by omega⟩
    simp only [quotient, Int.natAbs_neg, Int.natAbs_natCast, zpow_neg, zpow_natCast, Nat.pow_eq,
      Nat.cast_mul, Nat.cast_pow]
    rw [div_mul_eq_div_div, div_eq_mul_inv (_ / _)]
  · rename_i he
    obtain ⟨k, rfl⟩ : ∃ k : Nat, e = k := ⟨e.natAbs, by omega⟩
    simp only [quotient, Int.natAbs_natCast, zpow_natCast, Nat.pow_eq, Nat.cast_mul, Nat.cast_pow]
    rw [div_mul_eq_mul_div]

theorem quotient_scaleTwo (n d : Nat) (e : Int) :
    quotient (scaleTwo n d e) = quotient (n, d) * 2 ^ e :=
  mod_cast quotient_scale 2 n d e

theorem quotient_scaleTen (n d : Nat) (e : Int) :
    quotient (scaleTen n d e) = quotient (n, d) * 10 ^ e :=
  mod_cast quotient_scale 10 n d e

theorem scaleTwo_pos {n d : Nat} (hd : 0 < d) (e : Int) : 0 < (scaleTwo n d e).2 := by
  unfold scaleTwo
  split
  · exact Nat.mul_pos hd (Nat.pow_pos (by decide))
  · exact hd

theorem scaleTen_pos {n d : Nat} (hd : 0 < d) (e : Int) : 0 < (scaleTen n d e).2 := by
  unfold scaleTen
  split
  · exact Nat.mul_pos hd (Nat.pow_pos (by decide))
  · exact hd

/-- Quotients are compared crosswise. -/
theorem cross_le_iff {s t : Nat × Nat} (hs : 0 < s.2) (ht : 0 < t.2) :
    s.1 * t.2 ≤ t.1 * s.2 ↔ quotient s ≤ quotient t := by
  rw [quotient, quotient, div_le_div_iff₀ (Nat.cast_pos.mpr hs) (Nat.cast_pos.mpr ht)]
  exact_mod_cast Iff.rfl

/-- Fractions compare by cross products. -/
theorem cross_lt_iff {s t : Nat × Nat} (hs : 0 < s.2) (ht : 0 < t.2) :
    s.1 * t.2 < t.1 * s.2 ↔ quotient s < quotient t := by
  rw [← not_le, ← not_le, cross_le_iff ht hs]

/-! ### Intervals -/

namespace Interval

variable {i : Interval}

def lower (i : Interval) : ℚ := quotient (i.low, i.denominator)

def middle (i : Interval) : ℚ := quotient (i.value, i.denominator)

def upper (i : Interval) : ℚ := quotient (i.high, i.denominator)

/-- Whether a number lies in an interval, the ends of which may belong to it. -/
def Within (i : Interval) (x : ℚ) : Prop :=
  if i.closed then i.lower ≤ x ∧ x ≤ i.upper else i.lower < x ∧ x < i.upper

/-- What lies strictly between the ends lies within. -/
theorem within_of_lt {x : ℚ} (hlow : i.lower < x) (hhigh : x < i.upper) : i.Within x := by
  unfold Within
  split
  · exact ⟨hlow.le, hhigh.le⟩
  · exact ⟨hlow, hhigh⟩

/-- The computed test decides whether a decimal lies within the interval. -/
theorem holds_iff (hi : 0 < i.denominator) {digits : Nat} {e : Int} :
    i.holds digits e = true ↔ i.Within (digits * 10 ^ e) := by
  have hs : 0 < (scaleTen digits 1 e).2 := scaleTen_pos Nat.one_pos e
  have hvalue : (digits : ℚ) * 10 ^ e = quotient (scaleTen digits 1 e) := by
    rw [quotient_scaleTen, quotient, Nat.cast_one, div_one]
  rw [holds, Within, hvalue, lower, upper]
  cases i.closed
  · simp only [Bool.false_eq_true, if_false, Bool.and_eq_true, decide_eq_true_eq]
    exact and_congr (cross_lt_iff (s := (i.low, i.denominator)) hi hs)
      (cross_lt_iff (t := (i.high, i.denominator)) hs hi)
  · simp only [if_true, Bool.and_eq_true, decide_eq_true_eq]
    exact and_congr (cross_le_iff (s := (i.low, i.denominator)) hi hs)
      (cross_le_iff (t := (i.high, i.denominator)) hs hi)

/-! ### The search -/

/-- The multiple of a grid below the value, which `hit?` tries first. -/
def below (i : Interval) (e : Int) : Nat :=
  (scaleTen i.value i.denominator (-e)).1 / (scaleTen i.value i.denominator (-e)).2

/-- Rounding down to a power of ten stays below the middle, ... -/
theorem below_le (i : Interval) (e : Int) : (i.below e : ℚ) * 10 ^ e ≤ i.middle := by
  have hscaled : (i.below e : ℚ) ≤ i.middle * 10 ^ (-e) :=
    Nat.cast_div_le.trans_eq (quotient_scaleTen i.value i.denominator (-e))
  rwa [zpow_neg, ← div_eq_mul_inv, le_div_iff₀ (by positivity)] at hscaled

/-- ... and one step further passes it. -/
theorem lt_below_succ (hi : 0 < i.denominator) (e : Int) :
    i.middle < (i.below e + 1 : ℚ) * 10 ^ e := by
  have hpos := scaleTen_pos (n := i.value) hi (-e)
  have hscaled : i.middle * 10 ^ (-e) < (i.below e + 1 : ℚ) := by
    rw [middle, ← quotient_scaleTen, quotient, div_lt_iff₀ (Nat.cast_pos.mpr hpos)]
    exact_mod_cast Nat.lt_mul_of_div_lt (Nat.lt_succ_self _) hpos
  rwa [zpow_neg, ← div_eq_mul_inv, div_lt_iff₀ (by positivity)] at hscaled

/-- The ways a grid is tried. -/
theorem hit_cases (i : Interval) (e : Int) :
    (i.hit? e = none ∧ ¬ (i.holds (i.below e) e = true ∧ i.below e ≠ 0)) ∨
      (i.hit? e = some (i.below e) ∧ i.holds (i.below e) e = true ∧ i.below e ≠ 0) ∨
      (i.hit? e = some (i.below e + 1) ∧ i.holds (i.below e + 1) e = true) := by
  have hfirst : (i.holds (i.below e) e && i.below e != 0) = true ↔
      i.holds (i.below e) e = true ∧ i.below e ≠ 0 := by simp
  rw [← hfirst]
  unfold hit?
  dsimp only
  rw [← below]
  cases (i.holds (i.below e) e && i.below e != 0) <;> cases i.holds (i.below e + 1) e
  · simp
  · simp
  · simp
  · dsimp only
    split_ifs <;> simp

/-- **A hit** lies in the interval and is not zero. -/
theorem hit_spec {e : Int} {d : Nat} (h : i.hit? e = some d) : i.holds d e = true ∧ d ≠ 0 := by
  rcases hit_cases i e with ⟨hnone, -⟩ | ⟨hsome, hholds, hne⟩ | ⟨hsome, hholds⟩
  · rw [hnone] at h
    cases h
  · obtain rfl := Option.some.inj (hsome.symm.trans h)
    exact ⟨hholds, hne⟩
  · obtain rfl := Option.some.inj (hsome.symm.trans h)
    exact ⟨hholds, Nat.succ_ne_zero _⟩

/-- The multiple below the value is a hit if it lies in the interval and is not zero. -/
theorem exists_hit {e : Int} (hholds : i.holds (i.below e) e = true) (hne : i.below e ≠ 0) :
    ∃ d, i.hit? e = some d := by
  rcases hit_cases i e with ⟨-, hnot⟩ | ⟨hsome, -⟩ | ⟨hsome, -⟩
  · exact absurd ⟨hholds, hne⟩ hnot
  · exact ⟨_, hsome⟩
  · exact ⟨_, hsome⟩

/-- **The search** ends with a hit if one of the grids it tries has one. -/
theorem search_spec {magnitude : Int} {fuel : Nat} {n : Int}
    (h : ∃ k < fuel, ∃ d, i.hit? (magnitude - (n + k)) = some d) :
    i.hit? (i.search magnitude fuel n).2 = some (i.search magnitude fuel n).1 := by
  induction fuel generalizing n with
  | zero => obtain ⟨k, hk, -⟩ := h; cases hk
  | succ fuel ih =>
    rw [search]
    cases hhit : i.hit? (magnitude - n) with
    | some d => exact hhit
    | none =>
      obtain ⟨k, hk, d, hd⟩ := h
      cases k with
      | zero => simp [hhit] at hd
      | succ k =>
        refine ih ⟨k, Nat.lt_of_succ_lt_succ hk, d, ?_⟩
        rwa [Nat.cast_succ, add_comm (k : Int) 1, ← add_assoc] at hd

/-- **The magnitude** is not above that of the value, if the start is not. -/
theorem magnitude_le (hi : 0 < i.denominator) {k : Int} (hk : (10 : ℚ) ^ (k - 1) ≤ i.middle)
    (fuel : Nat) : (10 : ℚ) ^ (i.magnitude fuel k - 1) ≤ i.middle := by
  induction fuel generalizing k with
  | zero => exact hk
  | succ fuel ih =>
    rw [magnitude]
    split
    · exact hk
    · rename_i hnot
      refine ih ?_
      rw [add_sub_cancel_right]
      have hvalue : quotient (scaleTen i.denominator 1 k) = i.denominator * 10 ^ k := by
        rw [quotient_scaleTen, quotient, Nat.cast_one, div_one]
      have hpos := scaleTen_pos (n := i.denominator) Nat.one_pos k
      have hle : ((i.denominator : ℚ) * 10 ^ k) ≤ i.value := by
        rw [← hvalue, quotient, div_le_iff₀ (Nat.cast_pos.mpr hpos)]
        exact_mod_cast Nat.le_of_not_lt hnot
      rwa [middle, quotient, le_div_iff₀ (Nat.cast_pos.mpr hi), mul_comm]

/-- **Eighteen digits suffice** for an interval whose lower half is wider than the hundred
quadrillionth part of the value. -/
theorem exists_hit_of_narrow (hi : 0 < i.denominator) {k : Int}
    (hk : (10 : ℚ) ^ (k - 1) ≤ i.middle) (hlow : i.lower < i.middle - i.middle / 10 ^ 17)
    (hhigh : i.middle < i.upper) : ∃ d, i.hit? (k - 18) = some d := by
  have hgrid : (10 : ℚ) ^ (k - 18) ≤ i.middle / 10 ^ 17 := by
    rw [le_div_iff₀ (by positivity), ← zpow_natCast, ← zpow_add₀ (by norm_num)]
    exact le_of_eq_of_le (by congr 1; push_cast; ring) hk
  have hpos : (0 : ℚ) < 10 ^ (k - 18) := by positivity
  have hle := below_le i (k - 18)
  have hlt := lt_below_succ hi (k - 18)
  refine exists_hit ((holds_iff hi).mpr (within_of_lt ?_ (hle.trans_lt hhigh))) ?_
  · linarith
  · intro hzero
    rw [hzero, Nat.cast_zero, zero_add, one_mul] at hlt
    have hmiddle : i.middle / 10 ^ 17 ≤ i.middle :=
      div_le_self ((zpow_pos (by norm_num) _).le.trans hk) (by norm_num)
    linarith

end Interval

/-! ### Sizes -/

namespace Binary

/-- A size that the bits of a double can have: the mantissa has fifty-three bits, and its
leading bit is set unless the exponent is the lowest one. -/
structure Proper (b : Binary) : Prop where
  mantissa_lt : b.mantissa < 2 * unit
  lowest : -1074 ≤ b.exponent
  highest : b.exponent ≤ 972
  normal : b.exponent = -1074 ∨ unit ≤ b.mantissa

/-- Every pattern of bits gives a normalized number. -/
theorem proper_ofBits (bits : Nat) : (ofBits bits).Proper := by
  have hunit : 0 < unit := by decide
  have hfraction : bits % unit < unit := Nat.mod_lt _ hunit
  have hfield : bits / unit % 2048 < 2048 := Nat.mod_lt _ (by decide)
  unfold ofBits
  dsimp only
  split
  · exact ⟨by dsimp only; omega, le_refl _, by dsimp only; omega, .inl rfl⟩
  · rename_i hne
    refine ⟨by dsimp only; omega, ?_, ?_, .inr (Nat.le_add_right _ _)⟩
    · simp only [Int.ofNat_eq_natCast]
      omega
    · simp only [Int.ofNat_eq_natCast]
      omega

variable {b c : Binary}

theorem Proper.eq_of_zero (hb : b.Proper) (hc : c.Proper) (hbzero : b.mantissa = 0)
    (hczero : c.mantissa = 0) : b = c := by
  have hunit : 0 < unit := by decide
  have hexponent : b.exponent = c.exponent :=
    (hb.normal.resolve_right (by omega)).trans (hc.normal.resolve_right (by omega)).symm
  cases b
  cases c
  simp_all

def size (b : Binary) : ℚ := b.mantissa * 2 ^ b.exponent

theorem denominator_around (b : Binary) : 0 < (Interval.around b).denominator :=
  scaleTwo_pos Nat.one_pos _

/-- A quarter of the weight of the lowest bit, in which the ends of an interval are whole. -/
def quarter (b : Binary) : ℚ := 2 ^ (b.exponent - 2)

/-- The quarter step between two doubles is positive. -/
theorem quarter_pos (b : Binary) : 0 < b.quarter := by
  unfold quarter
  positivity

theorem size_eq (b : Binary) : b.size = 4 * b.mantissa * b.quarter := by
  rw [size, quarter, zpow_sub₀ (by norm_num)]
  ring

theorem quotient_around (b : Binary) (n : Nat) :
    quotient (n * (scaleTwo 1 1 (b.exponent - 2)).1, (scaleTwo 1 1 (b.exponent - 2)).2) =
      n * b.quarter := by
  have hquarter : quotient (scaleTwo 1 1 (b.exponent - 2)) = b.quarter := by
    rw [quotient_scaleTwo, quotient, quarter]
    norm_num
  rw [← hquarter, quotient, quotient]
  push_cast
  ring

/-- The interval stands around the double's size. -/
theorem middle_around (b : Binary) : (Interval.around b).middle = b.size := by
  rw [size_eq, Interval.middle, Interval.around, quotient_around]
  push_cast
  ring

/-- Its upper end is half a step above. -/
theorem upper_around (b : Binary) : (Interval.around b).upper = (4 * b.mantissa + 2) * b.quarter := by
  rw [Interval.upper, Interval.around, quotient_around]
  push_cast
  ring

/-- The distance from the lower end of the interval, in quarters. -/
def gap (b : Binary) : Nat :=
  if b.mantissa = unit ∧ b.exponent > -1074 then 1 else 2

/-- The step below a power of two is half the one above, the least exponent apart. -/
theorem gap_cases (b : Binary) :
    (b.gap = 1 ∧ b.mantissa = unit ∧ -1074 < b.exponent) ∨
      (b.gap = 2 ∧ ¬ (b.mantissa = unit ∧ -1074 < b.exponent)) := by
  unfold gap
  split
  · rename_i h
    exact .inl ⟨rfl, h.1, h.2⟩
  · rename_i h
    exact .inr ⟨rfl, h⟩

/-- Its lower end is half the step below. -/
theorem lower_around (hb : b.mantissa ≠ 0) :
    (Interval.around b).lower = (4 * b.mantissa - b.gap) * b.quarter := by
  have hgap : b.gap ≤ 4 * b.mantissa := by
    rcases gap_cases b with ⟨h, -⟩ | ⟨h, -⟩ <;> omega
  rw [Interval.lower, Interval.around, quotient_around]
  change ((4 * b.mantissa - b.gap : Nat) : ℚ) * _ = _
  rw [Nat.cast_sub hgap]
  push_cast
  rfl

/-! ### The start of the search -/

/-- Whether a power of ten with the exponent that is estimated for a power of two lies below
it. -/
def estimated (n : Int) : Bool :=
  (scaleTen 1 1 (n * 30103 / 100000 - 2)).1 * (scaleTwo 1 1 n).2 ≤
    (scaleTwo 1 1 n).1 * (scaleTen 1 1 (n * 30103 / 100000 - 2)).2

/-- The estimate of the first power of ten tried, over all exponents of doubles. -/
theorem tenPow_le_twoPow {n : Int} (hlow : -1074 ≤ n) (hhigh : n ≤ 1024) :
    (10 : ℚ) ^ (n * 30103 / 100000 - 2) ≤ 2 ^ n := by
  have hall : ∀ k : Nat, k < 2099 → estimated (k - 1074) = true := by decide +kernel
  have hcross := of_decide_eq_true (hall (n + 1074).toNat (by omega))
  rw [show (((n + 1074).toNat : Int) - 1074) = n by omega] at hcross
  have hle := (cross_le_iff (scaleTen_pos Nat.one_pos _) (scaleTwo_pos Nat.one_pos _)).mp hcross
  rw [quotient_scaleTen, quotient_scaleTwo] at hle
  simpa [quotient] using hle

def start (b : Binary) : Int :=
  ((b.mantissa.log2 : Int) + b.exponent) * 30103 / 100000 - 1

/-- The search starts below the size. -/
theorem start_le (hb : b.Proper) (hne : b.mantissa ≠ 0) : (10 : ℚ) ^ (b.start - 1) ≤ b.size := by
  have hlog : b.mantissa.log2 < 53 := (Nat.log2_lt hne).mpr (hb.mantissa_lt.trans_eq (by decide))
  have hlow := hb.lowest
  have hhigh := hb.highest
  calc (10 : ℚ) ^ (b.start - 1)
      = 10 ^ (((b.mantissa.log2 : Int) + b.exponent) * 30103 / 100000 - 2) := by
        congr 1
        unfold start
        ring
    _ ≤ 2 ^ ((b.mantissa.log2 : Int) + b.exponent) := tenPow_le_twoPow (by omega) (by omega)
    _ = 2 ^ b.mantissa.log2 * 2 ^ b.exponent := by
        rw [zpow_add₀ (by norm_num), zpow_natCast]
    _ ≤ b.size := by
        refine mul_le_mul_of_nonneg_right ?_ (by positivity)
        exact_mod_cast Nat.log2_self_le hne

/-- **The digits of a double** are not zero and lie in its interval. -/
theorem shortest_spec (hb : b.Proper) (hne : b.mantissa ≠ 0) :
    (Interval.around b).holds (shortest b).1 (shortest b).2 = true ∧ (shortest b).1 ≠ 0 := by
  have hi := denominator_around b
  have hquarter := quarter_pos b
  have hmagnitude := Interval.magnitude_le hi
    (by rw [middle_around]; exact start_le hb hne : (10 : ℚ) ^ (b.start - 1) ≤ _) 4
  refine Interval.hit_spec (Interval.search_spec ⟨17, by decide, ?_⟩)
  refine Interval.exists_hit_of_narrow hi hmagnitude ?_ ?_
  · -- the mantissa has so few bits that the lower half is wide enough
    have hlt : (b.mantissa : ℚ) < 9007199254740992 := mod_cast hb.mantissa_lt
    have hgap : (1 : ℚ) ≤ b.gap := by
      rcases gap_cases b with ⟨h, -⟩ | ⟨h, -⟩ <;> rw [h] <;> norm_num
    rw [lower_around hne, middle_around, size_eq, mul_div_right_comm, ← sub_mul]
    refine mul_lt_mul_of_pos_right ?_ hquarter
    linarith
  · rw [upper_around, middle_around, size_eq]
    exact mul_lt_mul_of_pos_right (by linarith) hquarter

/-! ### Different sizes -/

/-- Above the lowest exponent an interval begins a quarter below four times the least mantissa
with a leading bit, or later. -/
theorem le_sub_gap (hc : c.Proper) (h : -1074 < c.exponent) :
    (4 * unit - 1 : ℚ) ≤ 4 * c.mantissa - c.gap := by
  have hleading : unit ≤ c.mantissa := hc.normal.resolve_left (by omega)
  rcases gap_cases c with ⟨hgap, hunit, -⟩ | ⟨hgap, hnot⟩
  · rw [hgap, hunit, Nat.cast_one]
  · have hnext : (unit + 1 : ℚ) ≤ c.mantissa := by
      have : unit + 1 ≤ c.mantissa := by omega
      exact_mod_cast this
    rw [hgap, Nat.cast_two]
    linarith

/-- **Intervals in order.** The interval of a smaller exponent ends where that of a larger one
begins or before, and its end does not belong to it if they meet: the lowest bit of the larger
size weighs at least twice as much. -/
theorem upper_le_lower_of_exponent_lt (hb : b.Proper) (hc : c.Proper) (hne : c.mantissa ≠ 0)
    (h : b.exponent < c.exponent) :
    (Interval.around b).upper ≤ (Interval.around c).lower ∧
      ((Interval.around b).upper = (Interval.around c).lower → b.mantissa % 2 = 1) := by
  have hquarter := quarter_pos b
  have hend : (4 * b.mantissa + 2 : ℚ) ≤ 8 * unit - 2 := by
    have : (b.mantissa + 1 : ℚ) ≤ 2 * unit := mod_cast hb.mantissa_lt
    linarith
  have hweight : 2 * b.quarter ≤ c.quarter := by
    rw [quarter, quarter, ← zpow_one_add₀ (by norm_num)]
    exact zpow_le_zpow_right₀ (by norm_num) (by omega)
  have hstart : (8 * unit - 2) * b.quarter ≤ (4 * c.mantissa - c.gap) * c.quarter := by
    have hunit : (0 : ℚ) ≤ 4 * unit - 1 := by norm_num [unit]
    calc (8 * unit - 2 : ℚ) * b.quarter
        = (4 * unit - 1) * (2 * b.quarter) := by ring
      _ ≤ (4 * c.mantissa - c.gap) * c.quarter :=
          mul_le_mul (le_sub_gap hc (hb.lowest.trans_lt h)) hweight (by positivity)
            (hunit.trans (le_sub_gap hc (hb.lowest.trans_lt h)))
  rw [upper_around, lower_around hne]
  refine ⟨(mul_le_mul_of_nonneg_right hend hquarter.le).trans hstart, fun heq => ?_⟩
  have hlast : (8 * unit - 2 : ℚ) ≤ 4 * b.mantissa + 2 :=
    le_of_mul_le_mul_right (hstart.trans_eq heq.symm) hquarter
  have hlast : (8 * unit : ℚ) ≤ 4 * b.mantissa + 4 := by linarith
  have hlast : 8 * unit ≤ 4 * b.mantissa + 4 := mod_cast hlast
  have hlt := hb.mantissa_lt
  omega

/-- Of two intervals with one exponent, the end they may have in common does not belong to
both. -/
theorem upper_le_lower_of_mantissa_lt (hne : c.mantissa ≠ 0) (heq : b.exponent = c.exponent)
    (h : b.mantissa < c.mantissa) :
    (Interval.around b).upper ≤ (Interval.around c).lower ∧
      ((Interval.around b).upper = (Interval.around c).lower →
        b.mantissa % 2 = 1 ∨ c.mantissa % 2 = 1) := by
  have hquarter := quarter_pos b
  have hscale : c.quarter = b.quarter := by rw [quarter, quarter, heq]
  have hnext : 4 * b.mantissa + 2 + c.gap ≤ 4 * c.mantissa := by
    rcases gap_cases c with ⟨hgap, -⟩ | ⟨hgap, -⟩ <;> omega
  have hnext : (4 * b.mantissa + 2 + c.gap : ℚ) ≤ 4 * c.mantissa := mod_cast hnext
  rw [upper_around, lower_around hne, hscale]
  refine ⟨mul_le_mul_of_nonneg_right (by linarith) hquarter.le, fun hsame => ?_⟩
  have hsame : (4 * b.mantissa + 2 : ℚ) = 4 * c.mantissa - c.gap :=
    mul_right_cancel₀ hquarter.ne' hsame
  have hsame : (4 * b.mantissa + 2 + c.gap : ℚ) = 4 * c.mantissa := by linarith
  have hsame : 4 * b.mantissa + 2 + c.gap = 4 * c.mantissa := mod_cast hsame
  rcases gap_cases c with ⟨hgap, -⟩ | ⟨hgap, -⟩ <;> omega

/-- The intervals of two different doubles do not meet. -/
theorem not_within_both (hb : b.Proper) (hc : c.Proper) (hne : c.mantissa ≠ 0)
    (h : b.exponent < c.exponent ∨ b.exponent = c.exponent ∧ b.mantissa < c.mantissa) {x : ℚ}
    (hbx : (Interval.around b).Within x) (hcx : (Interval.around c).Within x) : False := by
  obtain ⟨hle, heq⟩ : (Interval.around b).upper ≤ (Interval.around c).lower ∧
      ((Interval.around b).upper = (Interval.around c).lower →
        b.mantissa % 2 = 1 ∨ c.mantissa % 2 = 1) := by
    rcases h with hlt | ⟨heq, hlt⟩
    · exact (upper_le_lower_of_exponent_lt hb hc hne hlt).imp_right fun h hsame => .inl (h hsame)
    · exact upper_le_lower_of_mantissa_lt hne heq hlt
  have hbclosed : (Interval.around b).closed = (b.mantissa % 2 == 0) := rfl
  have hcclosed : (Interval.around c).closed = (c.mantissa % 2 == 0) := rfl
  unfold Interval.Within at hbx hcx
  split_ifs at hbx hcx with hbeven hceven
  · have hsame : (Interval.around b).upper = (Interval.around c).lower := by linarith
    rcases heq hsame with hodd | hodd <;> simp_all
  all_goals linarith

/-- **A number is in the interval of one size only.** -/
theorem eq_of_within (hb : b.Proper) (hc : c.Proper) (hbne : b.mantissa ≠ 0)
    (hcne : c.mantissa ≠ 0) {x : ℚ} (hbx : (Interval.around b).Within x)
    (hcx : (Interval.around c).Within x) : b = c := by
  rcases lt_trichotomy b.exponent c.exponent with hlt | heq | hlt
  · exact (not_within_both hb hc hcne (.inl hlt) hbx hcx).elim
  · rcases lt_trichotomy b.mantissa c.mantissa with hm | hm | hm
    · exact (not_within_both hb hc hcne (.inr ⟨heq, hm⟩) hbx hcx).elim
    · cases b
      cases c
      simp_all
    · exact (not_within_both hc hb hbne (.inr ⟨heq.symm, hm⟩) hcx hbx).elim
  · exact (not_within_both hc hb hbne (.inl hlt) hcx hbx).elim

/-- The number that digits and an exponent stand for. -/
def decimal (digits : Nat × Int) : ℚ := digits.1 * 10 ^ digits.2

/-- **The digits determine the size.** -/
theorem eq_of_shortest (hb : b.Proper) (hc : c.Proper) (hbne : b.mantissa ≠ 0)
    (hcne : c.mantissa ≠ 0) (h : decimal (shortest b) = decimal (shortest c)) : b = c := by
  have hbx := (Interval.holds_iff (denominator_around b)).mp (shortest_spec hb hbne).1
  have hcx := (Interval.holds_iff (denominator_around c)).mp (shortest_spec hc hcne).1
  rw [decimal, decimal] at h
  exact eq_of_within hb hc hbne hcne (h ▸ hbx) hcx

end Binary

end Covenant.Decimal
