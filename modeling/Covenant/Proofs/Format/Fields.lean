import Covenant.Proofs.Format.Dates
import Covenant.Proofs.Pattern.Cutting

/-!
The fields of date formats, read and written.

* `DateField.part_read_of_ne`: a field sets one part of a moment and leaves the others.
* `DateField.eq_of_leads`: of two texts of a field, neither goes on with the other, unless the field is a
  number without leading zeros.
* `DateField.admits_write`: what a field writes is a text of the field.
* `DateField.part_read_write`: what a field has written is read as the part that it was written for.
-/

namespace Covenant

/-! ### Parts -/

/-- The parts of a moment. -/
inductive Moment.Part where
  | year
  | month
  | day
  | hour
  | minute
  | second
  | microsecond
  | offset
deriving DecidableEq

/-- A part of a moment; only the offset may be missing. -/
def Moment.part (m : Moment) : Moment.Part → Option Int
  | .year => some m.year
  | .month => some m.month
  | .day => some m.day
  | .hour => some m.hour
  | .minute => some m.minute
  | .second => some m.second
  | .microsecond => some m.microsecond
  | .offset => m.offset

theorem Moment.eq_of_parts {m m' : Moment} (h : ∀ p, m.part p = m'.part p) : m = m' := by
  have hyear := h .year
  have hmonth := h .month
  have hday := h .day
  have hhour := h .hour
  have hminute := h .minute
  have hsecond := h .second
  have hmicrosecond := h .microsecond
  have hoffset := h .offset
  cases m
  cases m'
  simp_all [Moment.part]

namespace DateField

def part : DateField → Moment.Part
  | .year | .shortYear => .year
  | .monthName | .monthShort | .month2 | .month => .month
  | .day2 | .day => .day
  | .hour2 | .hour => .hour
  | .minute => .minute
  | .second => .second
  | .millisecond => .microsecond
  | .zone => .offset

variable {f : DateField} {cs ds : List Char} {m : Moment}

/-- A field leaves the other parts. -/
theorem part_read_of_ne {p : Moment.Part} (h : f.part ≠ p) : (f.read cs m).part p = m.part p := by
  cases f <;> cases p <;> first | rfl | exact absurd rfl h

/-! ### Texts of fields -/

def Admits (f : DateField) (cs : List Char) : Prop :=
  (Symbol.pattern f.regex).toPattern.Admits cs

instance : Decidable (f.Admits cs) :=
  inferInstanceAs (Decidable (Pattern.Admits _ _))

/-- The sign of an offset, then hours and minutes, which a colon may separate. -/
def zonePattern : Pattern :=
  .alt (.char 'Z') (.seq (.oneOf false [.range '+' '+', .range '-' '-'])
    (.seq (.rep Symbol.digitPattern 2 (some 0) false) (.seq (.rep (.char ':') 0 (some 1) false)
      (.rep Symbol.digitPattern 2 (some 0) false))))

theorem toPattern_regex :
    (Symbol.pattern DateField.year.regex).toPattern = .rep Symbol.digitPattern 4 (some 0) false ∧
    (Symbol.pattern DateField.millisecond.regex).toPattern =
      .rep Symbol.digitPattern 3 (some 0) false ∧
    (Symbol.pattern DateField.shortYear.regex).toPattern =
      .rep Symbol.digitPattern 2 (some 0) false ∧
    (Symbol.pattern DateField.zone.regex).toPattern = zonePattern := by
  decide +kernel

/-- **Digits of a width**, which is what a field of so many digits admits. -/
theorem admits_width_iff {width : Nat} :
    (Pattern.rep Symbol.digitPattern width (some 0) false).Admits cs ↔
      (∀ c ∈ cs, c.isDigit = true) ∧ cs.length = width := by
  rw [Pattern.admits_digits_iff]
  constructor
  · rintro ⟨hdigits, hleast, hmost⟩
    exact ⟨hdigits, Nat.le_antisymm (hmost 0 rfl) hleast⟩
  · rintro ⟨hdigits, rfl⟩
    exact ⟨hdigits, Nat.le_refl _, fun m _ => Nat.le_add_right _ _⟩

/-- Hours and minutes behind a sign, with a colon or without. -/
def IsOffset (cs : List Char) : Prop :=
  ∃ sign h h' n n' : Char, (sign = '+' ∨ sign = '-') ∧
    (∀ c ∈ [h, h', n, n'], c.isDigit = true) ∧
      (cs = [sign, h, h', n, n'] ∨ cs = [sign, h, h', ':', n, n'])

theorem admits_zone_iff : zone.Admits cs ↔ cs = ['Z'] ∨ IsOffset cs := by
  rw [Admits, toPattern_regex.2.2.2, zonePattern, Pattern.admits_alt_iff, Pattern.admits_char_iff]
  apply or_congr_right
  have hcolon : ¬ (Pattern.char ':').Admits [] := by decide
  simp only [Pattern.admits_seq_iff, admits_width_iff, Pattern.admits_optional_iff hcolon,
    Pattern.admits_char_iff, Pattern.admits_oneOf_iff]
  constructor
  · rintro ⟨_, _, rfl, ⟨sign, hsign, rfl⟩, hs, _, rfl, ⟨hhours, hwidth⟩, colon, ns, rfl, hcolon,
      hminutes, hwidth'⟩
    obtain ⟨h, h', rfl⟩ := List.length_eq_two.mp hwidth
    obtain ⟨n, n', rfl⟩ := List.length_eq_two.mp hwidth'
    refine ⟨sign, h, h', n, n', by simpa [Symbol.admits_range_self] using hsign, ?_, ?_⟩
    · change ∀ c ∈ [h, h'] ++ [n, n'], c.isDigit = true
      exact List.forall_mem_append.mpr ⟨hhours, hminutes⟩
    · rcases hcolon with rfl | rfl
      · exact .inl rfl
      · exact .inr rfl
  · rintro ⟨sign, h, h', n, n', hsign, hdigits, hcs⟩
    change ∀ c ∈ [h, h'] ++ [n, n'], c.isDigit = true at hdigits
    obtain ⟨hhours, hminutes⟩ := List.forall_mem_append.mp hdigits
    have hrest : ∃ colon, cs = [sign] ++ ([h, h'] ++ (colon ++ [n, n'])) ∧
        (colon = [] ∨ colon = [':']) := by
      rcases hcs with rfl | rfl
      · exact ⟨[], rfl, .inl rfl⟩
      · exact ⟨[':'], rfl, .inr rfl⟩
    obtain ⟨colon, rfl, hcolon⟩ := hrest
    exact ⟨_, _, rfl, ⟨sign, by simpa [Symbol.admits_range_self] using hsign, rfl⟩, _, _, rfl, ⟨hhours, rfl⟩, colon, _, rfl,
      hcolon, hminutes, rfl⟩

/-- The number of a year of two digits. -/
theorem digitsValue_shortYear (h : shortYear.Admits cs) : Text.digitsValue cs < 100 := by
  rw [Admits, toPattern_regex.2.2.1] at h
  obtain ⟨hdigits, hlength⟩ := admits_width_iff.mp h
  have hlt := Decimal.digitsValue_lt hdigits
  rwa [hlength] at hlt

/-! ### Where texts of fields end -/

def bare : DateField → Bool
  | .month | .day | .hour => true
  | _ => false

/-- The width of a field, if its texts have one. -/
def width? : DateField → Option Nat
  | .year => some 4
  | .millisecond | .monthShort => some 3
  | .shortYear | .month2 | .day2 | .hour2 | .minute | .second => some 2
  | .monthName | .month | .day | .hour | .zone => none

/-- Whether a field begins with a letter or a sign. -/
def worded : DateField → Bool
  | .monthName | .monthShort | .zone => true
  | _ => false

/-- What can be checked of each text of a field. -/
theorem holds_of_admits (holds : List Char → Bool)
    (h : ((Symbol.pattern f.regex).toPattern.texts?.any (·.all holds)) = true)
    (hcs : f.Admits cs) : holds cs = true :=
  Pattern.holds_of_texts h hcs

theorem length_of_width {n : Nat} (hf : f.width? = some n) (h : f.Admits cs) : cs.length = n := by
  cases f with
  | monthName | month | day | hour | zone => cases hf
  | year =>
    cases hf
    exact (admits_width_iff.mp (toPattern_regex.1 ▸ h)).2
  | millisecond =>
    cases hf
    exact (admits_width_iff.mp (toPattern_regex.2.1 ▸ h)).2
  | shortYear =>
    cases hf
    exact (admits_width_iff.mp (toPattern_regex.2.2.1 ▸ h)).2
  | monthShort =>
    cases hf
    exact of_decide_eq_true (holds_of_admits (fun cs => cs.length = 3) (by decide +kernel) h)
  | month2 | day2 | hour2 | minute | second =>
    cases hf
    exact of_decide_eq_true (holds_of_admits (fun cs => cs.length = 2) (by decide +kernel) h)

theorem digits_of_bare (hf : f.bare = true) (h : f.Admits cs) : ∀ c ∈ cs, c.isDigit = true := by
  cases f with
  | month | day | hour =>
    exact List.all_eq_true.mp (holds_of_admits (·.all Char.isDigit) (by decide +kernel) h)
  | _ => cases hf

/-- What is neither a digit nor missing begins a text. -/
def startsPlain : List Char → Bool
  | c :: _ => !c.isDigit
  | [] => false

theorem startsPlain_of_worded (hf : f.worded = true) (h : f.Admits cs) :
    startsPlain cs = true := by
  cases f with
  | monthName | monthShort => exact holds_of_admits startsPlain (by decide +kernel) h
  | zone =>
    rcases admits_zone_iff.mp h with rfl | ⟨sign, h, h', n, n', hsign, -, hcs⟩
    · rfl
    · rcases hsign with rfl | rfl <;> rcases hcs with rfl | rfl <;> rfl
  | _ => cases hf

/-- An offset does not go on with another: the colon is no digit. -/
theorem eq_of_leads_zone (h : zone.Admits cs) (h' : zone.Admits ds) (hleads : cs <+: ds) :
    cs = ds := by
  rcases admits_zone_iff.mp h with rfl | ⟨sign, a, b, c, d, hsign, hdigits, hcs⟩
  · rcases admits_zone_iff.mp h' with rfl | ⟨sign, a, b, c, d, hsign, -, hds⟩
    · rfl
    · obtain ⟨rest, hrest⟩ : ∃ rest, ds = sign :: rest := by
        rcases hds with rfl | rfl <;> exact ⟨_, rfl⟩
      rw [hrest, List.cons_prefix_cons] at hleads
      rcases hsign with rfl | rfl <;> exact absurd hleads.1 (by decide)
  · rcases admits_zone_iff.mp h' with rfl | ⟨sign', a', b', c', d', -, -, hds⟩
    · exact absurd hleads.length_le (by rcases hcs with rfl | rfl <;> simp)
    · rcases hcs with rfl | rfl <;> rcases hds with rfl | rfl
      · exact hleads.eq_of_length rfl
      · simp only [List.cons_prefix_cons] at hleads
        obtain ⟨-, -, -, rfl, -⟩ := hleads
        exact absurd (hdigits ':' (by simp)) (by decide)
      · exact absurd hleads.length_le (by simp)
      · exact hleads.eq_of_length rfl

/-- **Of two texts of a field, neither goes on with the other**, unless the field is a number without
leading zeros. -/
theorem eq_of_leads (hf : f.bare = false) (h : f.Admits cs) (h' : f.Admits ds)
    (hleads : cs <+: ds) : cs = ds := by
  cases hwidth : f.width? with
  | some n =>
    apply hleads.eq_of_length
    rw [length_of_width hwidth h, length_of_width hwidth h']
  | none =>
    cases f with
    | monthName =>
      have htexts : (Symbol.pattern DateField.monthName.regex).toPattern.texts? =
          some (monthNames.map String.toList) := by decide +kernel
      have hnames : ∀ a ∈ monthNames.map String.toList, ∀ b ∈ monthNames.map String.toList,
          a <+: b → a = b := by decide
      exact hnames _ (Pattern.mem_of_texts htexts h) _ (Pattern.mem_of_texts htexts h') hleads
    | zone => exact eq_of_leads_zone h h' hleads
    | month | day | hour => cases hf
    | _ => cases hwidth

end DateField

/-! ### What fields write -/

/-- **A moment as a text tells it**: to the millisecond, and with the whole minutes of an offset of
less than a day. -/
structure Moment.Told (m : Moment) : Prop where
  valid : m.Valid
  thousandths : 1000 ∣ m.microsecond
  offset : ∃ s, m.offset = some s ∧ s.natAbs < 86400 ∧ 60 ∣ s

/-- What is checked for each number of a range. -/
theorem holds_of_range {P : Int → Prop} {n : Int} (low high : Nat)
    (h : ∀ k < high + 1, low ≤ k → P k) (hlow : low ≤ n) (hhigh : n ≤ high) : P n := by
  obtain ⟨k, rfl⟩ := Int.eq_ofNat_of_zero_le (Int.le_trans (Int.natCast_nonneg low) hlow)
  exact h k (by omega) (by omega)

def Moment.kept (m : Moment) : Moment :=
  { m with microsecond := m.microsecond / 1000 * 1000 }

section

variable {m : Moment} {s : Int}

theorem Moment.told_kept (hm : m.Valid) (hoffset : m.offset = some s) (hs : s.natAbs < 86400)
    (hwhole : 60 ∣ s) : m.kept.Told := by
  obtain ⟨hyear, hmonth, hday, hhour, hminute, hsecond, hus, hus'⟩ := hm
  have hmicrosecond : 0 ≤ m.microsecond / 1000 * 1000 ∧ m.microsecond / 1000 * 1000 ≤ 999999 := by
    omega
  exact ⟨⟨hyear, hmonth, hday, hhour, hminute, hsecond, hmicrosecond⟩, Int.dvd_mul_left _ _,
    s, hoffset, hs, hwhole⟩

theorem Moment.read_kept (hm : m.Valid) (hoffset : m.offset = some s) (hs : s.natAbs < 86400)
    (hwhole : 60 ∣ s) : Moment.read m.text = .ok m.kept := by
  rw [read_text hm hoffset hs hwhole, kept, ← hoffset]

end

namespace DateField

open Moment (IsField isField_digits)

variable {f : DateField} {m w : Moment}

/-- The offset of an offset as it is written. -/
theorem offsetOf_offsetText {s : Int} (hs : s.natAbs < 86400) (hwhole : 60 ∣ s) :
    offsetOf (Moment.offsetText s).toList = s := by
  have hhours := Moment.isField_hours hs
  have hminutes := Moment.isField_minutes s
  have hplain : ∀ {width n ds}, IsField width n ds → ds.filter (· != ':') = ds := by
    intro width n ds hds
    apply List.filter_eq_self.mpr
    intro c hc
    rw [bne_iff_ne]
    rintro rfl
    exact absurd (hds.digits.2 _ hc) (by decide)
  rw [Moment.toList_offsetText, offsetOf]
  have hsign : (if s < 0 then '-' else '+') ≠ 'Z' := by split <;> decide
  have hfilter : ((Text.padded 2 (s.natAbs / 3600)).toList ++ ':' ::
      (Text.padded 2 (s.natAbs % 3600 / 60)).toList).filter (· != ':') =
      (Text.padded 2 (s.natAbs / 3600)).toList ++ (Text.padded 2 (s.natAbs % 3600 / 60)).toList := by
    rw [List.filter_append, List.filter_cons_of_neg (by simp), hplain hhours, hplain hminutes]
  simp only [if_neg hsign, hfilter, List.take_left' hhours.length, List.drop_left' hhours.length,
    hhours.value, hminutes.value]
  by_cases hminus : s < 0
  · rw [if_pos hminus, if_pos rfl]
    omega
  · rw [if_neg hminus, if_neg (by decide)]
    omega

/-- An offset as it is written. -/
theorem admits_offsetText {s : Int} (hs : s.natAbs < 86400) :
    zone.Admits (Moment.offsetText s).toList := by
  have hhours := Moment.isField_hours hs
  have hminutes := Moment.isField_minutes s
  obtain ⟨h, h', hhour⟩ := List.length_eq_two.mp hhours.length
  obtain ⟨n, n', hminute⟩ := List.length_eq_two.mp hminutes.length
  have hdigits : ∀ c ∈ [h, h'] ++ [n, n'], c.isDigit = true := by
    rw [← hhour, ← hminute]
    exact List.forall_mem_append.mpr ⟨hhours.digits.2, hminutes.digits.2⟩
  apply admits_zone_iff.mpr
  refine .inr ⟨if s < 0 then '-' else '+', h, h', n, n', ?_, hdigits, .inr ?_⟩
  · split
    · exact .inr rfl
    · exact .inl rfl
  · rw [Moment.toList_offsetText, hhour, hminute]
    rfl

/-- **What a field writes is a text of the field.** -/
theorem admits_write (hw : w.Told) : f.Admits (f.write w).toList := by
  obtain ⟨⟨⟨hy, hy'⟩, ⟨hmo, hmo'⟩, ⟨hd, hd'⟩, ⟨hh, hh'⟩, ⟨hmi, hmi'⟩, ⟨hse, hse'⟩, hus, hus'⟩, -,
    s, hoffset, hs, -⟩ := hw
  have hday : w.day ≤ 31 := hd'.trans (Moment.daysIn_le _ _)
  have hwidth : ∀ {width n}, 0 < width → 0 ≤ n → n < 10 ^ width →
      (Pattern.rep Symbol.digitPattern width (some 0) false).Admits (Moment.digits width n).toList := by
    intro width n hpos hn hlt
    have hfield := isField_digits hpos hn hlt
    exact admits_width_iff.mpr ⟨hfield.digits.2, hfield.length⟩
  cases f with
  | year =>
    rw [Admits, toPattern_regex.1]
    exact hwidth (by decide) (by omega) (by norm_num; omega)
  | millisecond =>
    rw [Admits, toPattern_regex.2.1]
    exact hwidth (by decide) (by omega) (by norm_num; omega)
  | shortYear =>
    rw [Admits, toPattern_regex.2.2.1]
    exact hwidth (by decide) (by omega) (by norm_num; omega)
  | monthName =>
    exact holds_of_range (P := fun n => monthName.Admits (monthNames.getD (n - 1).toNat "").toList)
      1 12 (by decide +kernel) hmo hmo'
  | monthShort =>
    exact holds_of_range (P := fun n => monthShort.Admits (monthShorts.getD (n - 1).toNat "").toList)
      1 12 (by decide +kernel) hmo hmo'
  | month2 =>
    exact holds_of_range (P := fun n => month2.Admits (Moment.digits 2 n).toList)
      1 12 (by decide +kernel) hmo hmo'
  | month =>
    exact holds_of_range (P := fun n => month.Admits (toString n).toList)
      1 12 (by decide +kernel) hmo hmo'
  | day2 =>
    exact holds_of_range (P := fun n => day2.Admits (Moment.digits 2 n).toList)
      1 31 (by decide +kernel) hd hday
  | day =>
    exact holds_of_range (P := fun n => day.Admits (toString n).toList)
      1 31 (by decide +kernel) hd hday
  | hour2 =>
    exact holds_of_range (P := fun n => hour2.Admits (Moment.digits 2 n).toList)
      0 23 (by decide +kernel) hh hh'
  | hour =>
    exact holds_of_range (P := fun n => hour.Admits (toString n).toList)
      0 23 (by decide +kernel) hh hh'
  | minute =>
    exact holds_of_range (P := fun n => minute.Admits (Moment.digits 2 n).toList)
      0 59 (by decide +kernel) hmi hmi'
  | second =>
    exact holds_of_range (P := fun n => second.Admits (Moment.digits 2 n).toList)
      0 59 (by decide +kernel) hse hse'
  | zone =>
    have hwrite : zone.write w = Moment.offsetText s := by
      change Moment.offsetText (w.offset.getD 0) = _
      rw [hoffset, Option.getD_some]
    rw [hwrite]
    exact admits_offsetText hs

/-- The number of a field of a width as it is written. -/
theorem digitsValue_digits {width : Nat} {n : Int} (hwidth : 0 < width) (hn : 0 ≤ n)
    (hlt : n < 10 ^ width) : (Text.digitsValue (Moment.digits width n).toList : Int) = n :=
  (isField_digits hwidth hn hlt).value

/-- A number as it is written without leading zeros. -/
theorem digitsValue_toString {n : Int} (hn : 0 ≤ n) :
    (Text.digitsValue (toString n).toList : Int) = n := by
  obtain ⟨k, rfl⟩ := Int.eq_ofNat_of_zero_le hn
  rw [show (toString (k : Int)).toList = Nat.toDigits 10 k from Text.toList_toString_ofNat k,
    Text.digitsValue_toDigits]

/-- **What a field has written is read** as the part that it was written for. Of years, only those
that two digits stand for are written by two digits. -/
theorem part_read_write (hw : w.Told) (hyear : f = .shortYear → 1969 ≤ w.year ∧ w.year ≤ 2068) :
    (f.read (f.write w).toList m).part f.part = w.part f.part := by
  obtain ⟨⟨⟨hy, hy'⟩, ⟨hmo, hmo'⟩, ⟨hd, hd'⟩, ⟨hh, hh'⟩, ⟨hmi, hmi'⟩, ⟨hse, hse'⟩, hus, hus'⟩, hms,
    s, hoffset, hs, hwhole⟩ := hw
  have hday : w.day ≤ 31 := hd'.trans (Moment.daysIn_le _ _)
  cases f with
  | year => exact congrArg some (digitsValue_digits (by decide) (by omega) (by norm_num; omega))
  | month2 => exact congrArg some (digitsValue_digits (by decide) (by omega) (by norm_num; omega))
  | day2 => exact congrArg some (digitsValue_digits (by decide) (by omega) (by norm_num; omega))
  | hour2 => exact congrArg some (digitsValue_digits (by decide) (by omega) (by norm_num; omega))
  | minute => exact congrArg some (digitsValue_digits (by decide) (by omega) (by norm_num; omega))
  | second => exact congrArg some (digitsValue_digits (by decide) (by omega) (by norm_num; omega))
  | month => exact congrArg some (digitsValue_toString (by omega))
  | day => exact congrArg some (digitsValue_toString (by omega))
  | hour => exact congrArg some (digitsValue_toString (by omega))
  | millisecond =>
    have hvalue := @digitsValue_digits 3 (w.microsecond / 1000) (by decide) (by omega)
      (by norm_num; omega)
    have hread : (Text.digitsValue (Moment.digits 3 (w.microsecond / 1000)).toList : Int) * 1000 =
        w.microsecond := by
      rw [hvalue]
      omega
    exact congrArg some hread
  | shortYear =>
    obtain ⟨hlow, hhigh⟩ := hyear rfl
    have hvalue := @digitsValue_digits 2 (w.year % 100) (by decide) (by omega) (by norm_num; omega)
    have hread : ∀ n : Int, n = w.year % 100 → n + (if n > 68 then 1900 else 2000) = w.year := by
      intro n hn
      split <;> omega
    exact congrArg some (hread _ hvalue)
  | monthName =>
    have hindex : (monthNames.idxOf (String.ofList
        (monthNames.getD (w.month - 1).toNat "").toList) : Int) + 1 = w.month :=
      holds_of_range (P := fun n => (monthNames.idxOf (String.ofList
        (monthNames.getD (n - 1).toNat "").toList) : Int) + 1 = n) 1 12 (by decide +kernel) hmo hmo'
    exact congrArg some hindex
  | monthShort =>
    have hindex : (monthShorts.idxOf (String.ofList
        (monthShorts.getD (w.month - 1).toNat "").toList) : Int) + 1 = w.month :=
      holds_of_range (P := fun n => (monthShorts.idxOf (String.ofList
        (monthShorts.getD (n - 1).toNat "").toList) : Int) + 1 = n) 1 12 (by decide +kernel) hmo hmo'
    exact congrArg some hindex
  | zone =>
    have hread : some (offsetOf (Moment.offsetText (w.offset.getD 0)).toList) = w.offset := by
      rw [hoffset]
      exact congrArg some (offsetOf_offsetText hs hwhole)
    exact hread

end DateField

end Covenant
