import Covenant.Moment.Reader
import Covenant.Proofs.Decimal.Numeral
import Covenant.Proofs.Text.Basic

/-!
Moments that are read back.

* `IsField`: the digits of a number in a field of a width; `isField_digits`: as they are written.
* `timeFrom_hour` to `timeFrom_offset`: the parts of a time, read one after the other.
* `Moment.read_text`: the text of a moment with an offset of whole minutes is read as the moment, to
  the millisecond.
-/

namespace Covenant

/-! ### Numbers in fields -/

namespace Decimal

theorem ofDigits_map (ds : List Char) :
    ofDigits (ds.map fun c => c.toNat - 48) = Text.digitsValue ds := by
  rw [ofDigits, List.foldl_map]
  rfl

/-- Digits are read as the number that they write. -/
theorem readInt_digits {ds : List Char} (h : IsDigits ds) (hlength : ds.length ≤ maxDigits) :
    readInt? (String.ofList ds) = some (Text.digitsValue ds : Int) := by
  have hsign : takeSign ds = (false, ds) := by simpa using takeSign_digits h []
  simp only [readInt?, String.toList_ofList, trim_numeral h.inNumeral, hsign, h.digitRun]
  simp [hlength, ofDigits_map]

/-- A number is less than one with more digits. -/
theorem digitsValue_lt {ds : List Char} (h : ∀ c ∈ ds, c.isDigit = true) :
    Text.digitsValue ds < 10 ^ ds.length := by
  have hdigit : ∀ d ∈ ds.map fun c => c.toNat - 48, d < 10 := by
    intro d hd
    obtain ⟨c, hc, rfl⟩ := List.mem_map.mp hd
    exact digitValue_lt (digitValue_of_isDigit (h c hc))
  rw [← ofDigits_map, ← ds.length_map fun c => c.toNat - 48]
  exact ofDigits_lt hdigit

end Decimal

namespace Text

theorem toList_pushn (s : String) (c : Char) (n : Nat) :
    (s.pushn c n).toList = s.toList ++ List.replicate n c := by
  induction n with
  | zero => exact (List.append_nil _).symm
  | succ n ih =>
    change ((s.pushn c n).push c).toList = _
    rw [String.toList_push, ih, List.append_assoc, List.replicate_succ']

/-- A number with zeros in front of it, up to a width. -/
theorem toList_padded (width n : Nat) : (padded width n).toList =
    List.replicate (width - (Nat.toDigits 10 n).length) '0' ++ Nat.toDigits 10 n := by
  have hrepr : (toString n).toList = Nat.toDigits 10 n := Nat.toList_repr
  rw [padded, String.toList_append, toList_pushn, hrepr, ← String.length_toList, hrepr]
  rfl

/-- A padded number is a run of digits. -/
theorem isDigits_padded (width n : Nat) : Decimal.IsDigits (padded width n).toList := by
  rw [toList_padded]
  refine ⟨by simp [Nat.toDigits_ne_nil], List.forall_mem_append.mpr ⟨fun c hc => ?_, fun c hc =>
    isDigit_of_mem_toDigits hc⟩⟩
  rw [List.eq_of_mem_replicate hc]
  rfl

/-- A number that is narrower than the width takes all of it. -/
theorem length_padded {width n : Nat} (hwidth : 0 < width) (hn : n < 10 ^ width) :
    (padded width n).toList.length = width := by
  have hle : (Nat.toDigits 10 n).length ≤ width :=
    (Nat.length_toDigits_le_iff (by decide) hwidth).mpr hn
  rw [toList_padded, List.length_append, List.length_replicate, Nat.sub_add_cancel hle]

/-- Zeros in front of a number. -/
theorem digitsValue_zeros (n : Nat) (ds : List Char) :
    digitsValue (List.replicate n '0' ++ ds) = digitsValue ds := by
  induction n with
  | zero => rfl
  | succ n ih => exact ih

end Text

namespace Moment

open Decimal

/-- **The digits of a number in a field** of a width. -/
structure IsField (width : Nat) (n : Int) (ds : List Char) : Prop where
  digits : IsDigits ds
  length : ds.length = width
  value : (Text.digitsValue ds : Int) = n

/-- A number is written with as many digits as its field has. -/
theorem isField_digits {width : Nat} {n : Int} (hwidth : 0 < width) (hn : 0 ≤ n)
    (hlt : n < 10 ^ width) : IsField width n (Moment.digits width n).toList := by
  obtain ⟨m, rfl⟩ := Int.eq_ofNat_of_zero_le hn
  have hm : m < 10 ^ width := by exact_mod_cast hlt
  have htext : Moment.digits width m = Text.padded width m := rfl
  rw [htext]
  refine ⟨Text.isDigits_padded width m, Text.length_padded hwidth hm, ?_⟩
  rw [Text.toList_padded, Text.digitsValue_zeros, Text.digitsValue_toDigits]

section

variable {width : Nat} {n : Int} {ds rest : List Char}

/-- A field is read as its number. -/
theorem IsField.number (h : IsField width n ds) (hwidth : width ≤ maxDigits) :
    number? width (ds ++ rest) = some n := by
  rw [number?, List.take_left' h.length, readInt_digits h.digits (h.length ▸ hwidth), h.value]

theorem IsField.drop (h : IsField width n ds) : (ds ++ rest).drop width = rest :=
  List.drop_left' h.length

theorem IsField.ascii (h : IsField width n ds) : ∀ c ∈ ds, c.toNat < 128 := by
  intro c hc
  have hdigit := h.digits.2 c hc
  simp only [Char.isDigit, Bool.and_eq_true, decide_eq_true_eq] at hdigit
  have hle : c.val.toNat ≤ 57 := hdigit.2
  exact Nat.lt_of_le_of_lt hle (by decide)

/-- What a field begins with starts no offset. -/
theorem IsField.cons (h : IsField width n ds) : ∃ c cs, ds ++ rest = c :: cs ∧
    ¬ (c = '-' ∨ c = '+' ∨ c = 'Z' ∨ c = 'z') ∧ c ≠ ':' := by
  obtain ⟨c, cs, rfl⟩ := List.exists_cons_of_ne_nil h.digits.1
  have hdigit := h.digits.2 c (by simp)
  refine ⟨c, cs ++ rest, rfl, ?_, ?_⟩
  · rintro (rfl | rfl | rfl | rfl) <;> cases hdigit
  · rintro rfl
    cases hdigit

end

/-! ### Parts of texts -/

section

variable {m : Moment} {colons : Bool} {fuel : Nat} {n : Int} {ds rest : List Char}

/-- A date by year, month and day. -/
theorem calendarDate_eq {year month day : Int} {ys ms : List Char} (hyear : IsField 4 year ys)
    (hmonth : IsField 2 month ms) (hday : IsField 2 day ds) :
    calendarDate? (ys ++ '-' :: (ms ++ '-' :: (ds ++ rest))) = some ({ year, month, day }, rest) := by
  have hlength : ¬ (ys ++ '-' :: (ms ++ '-' :: (ds ++ rest))).length < 4 := by
    simp [hyear.length]
  have hlength' : ¬ (ms ++ '-' :: (ds ++ rest)).length < 2 := by
    simp [hmonth.length]
    omega
  have hlength'' : ¬ (ds ++ rest).length < 2 := by
    simp [hday.length]
    omega
  unfold calendarDate?
  simp only [hlength, if_false, hyear.number (show 4 ≤ maxDigits by decide), hyear.drop, hlength',
    hmonth.number (show 2 ≤ maxDigits by decide), hmonth.drop, hlength'', hday.drop,
    hday.number (show 2 ≤ maxDigits by decide)]
  rfl

/-- The hour is read from two digits, ... -/
theorem timeFrom_hour (h : IsField 2 n ds) : timeFrom m colons (fuel + 1) 0 (ds ++ rest) =
    timeFrom { m with hour := n } colons fuel 1 rest := by
  obtain ⟨c, cs, hcs, hsign, -⟩ := @h.cons _ _ _ rest
  have hnumber := @h.number _ _ _ rest (by decide)
  have hdrop := @h.drop _ _ _ rest
  rw [hcs] at hnumber hdrop ⊢
  rw [timeFrom, if_neg hsign]
  simp only [hnumber, hdrop]
  rfl

/-- ... the minute from two behind a colon, ... -/
theorem timeFrom_minute (h : IsField 2 n ds) : timeFrom m colons (fuel + 1) 1 (':' :: (ds ++ rest)) =
    timeFrom { m with minute := n } true fuel 2 rest := by
  rw [timeFrom, if_neg (by decide)]
  simp only [if_true, h.number (show 2 ≤ maxDigits by decide), h.drop]
  rfl

/-- ... and so is the second, if the minute was. -/
theorem timeFrom_second (h : IsField 2 n ds) : timeFrom m true (fuel + 1) 2 (':' :: (ds ++ rest)) =
    timeFrom { m with second := n } true fuel 3 rest := by
  rw [timeFrom, if_neg (by decide)]
  simp only [if_true, bind, Option.bind, h.number (show 2 ≤ maxDigits by decide), h.drop]

/-- The thousandths of a second, before what is no digit. -/
theorem timeFrom_fraction (h : IsField 3 n ds) (hrest : ∀ c ∈ rest.head?, c.isDigit = false) :
    timeFrom m true (fuel + 1) 3 ('.' :: (ds ++ rest)) =
      timeFrom { m with microsecond := n * 1000 } true fuel 4 rest := by
  have hstop : rest.takeWhile Char.isDigit = [] ∧ rest.dropWhile Char.isDigit = rest := by
    cases rest with
    | nil => exact ⟨rfl, rfl⟩
    | cons c cs =>
      have hc := hrest c rfl
      exact ⟨List.takeWhile_cons_of_neg (by simp [hc]), List.dropWhile_cons_of_neg (by simp [hc])⟩
  have htake : (ds ++ rest).takeWhile Char.isDigit = ds := by
    rw [List.takeWhile_append_of_pos h.digits.2, hstop.1, List.append_nil]
  have hdrop : (ds ++ rest).dropWhile Char.isDigit = rest := by
    rw [List.dropWhile_append_of_pos h.digits.2, hstop.2]
  have hkept : ds.take 6 = ds := List.take_of_length_le (by simp [h.length])
  have hfraction : fraction? ('.' :: (ds ++ rest)) = some (n * 1000, rest) := by
    have hempty : ds.isEmpty = false := by simpa using h.digits.1
    rw [fraction?]
    simp only [htake, hdrop, hkept, h.length, hempty]
    simp [← h.value]
  rw [timeFrom, if_neg (by decide)]
  simp only [hfraction]

/-- A sign or a `Z` ends the time of day and gives the offset. -/
theorem timeFrom_offset {part : Nat} {c : Char} {cs : List Char} {s : Int}
    (hsign : c = '-' ∨ c = '+' ∨ c = 'Z' ∨ c = 'z') (h : offset? (c :: cs) = some s) :
    timeFrom m colons (fuel + 1) part (c :: cs) = some { m with offset := some s } := by
  unfold timeFrom
  simp only [if_pos hsign, h]
  rfl

/-! ### Offsets -/

/-- Hours and minutes after a sign. -/
theorem offset_parts {sign : Char} {factor : Int} {hs ms : List Char} {hours minutes : Nat}
    (hsign : (sign = '+' ∧ factor = 1) ∨ (sign = '-' ∧ factor = -1)) (hhours : IsField 2 hours hs)
    (hminutes : IsField 2 minutes ms) (hhour : hours ≤ 23) (hminute : minutes ≤ 59) :
    offset? (sign :: (hs ++ ':' :: ms)) = some (factor * (hours * 60 + minutes) * 60) := by
  have hlength : (sign :: (hs ++ ':' :: ms)).length = 6 := by
    simp [hhours.length, hminutes.length]
  have hnumber : number? ms.length ms = some (minutes : Int) := by
    have h := @hminutes.number _ _ _ [] (by decide)
    rwa [List.append_nil, ← hminutes.length] at h
  have hrange : ¬ (59 < minutes ∨ 23 < hours) := by omega
  have hfirst : number? 2 (hs ++ ':' :: ms) = some (hours : Int) := hhours.number (by decide)
  have hrest : (hs ++ ':' :: ms).drop 2 = ':' :: ms := hhours.drop
  rcases hsign with ⟨rfl, rfl⟩ | ⟨rfl, rfl⟩
  all_goals
    unfold offset?
    simp only [hlength]
    by_cases hzero : hours = 0 ∧ minutes = 0
    · simp [hfirst, hrest, hnumber, hzero]
    · simp [hfirst, hrest, hnumber, hzero, hrange]

theorem isField_hours {s : Int} (hs : s.natAbs < 86400) :
    IsField 2 (s.natAbs / 3600 : Nat) (Text.padded 2 (s.natAbs / 3600)).toList :=
  isField_digits (by decide) (Int.natCast_nonneg _) (by norm_cast; omega)

theorem isField_minutes (s : Int) :
    IsField 2 (s.natAbs % 3600 / 60 : Nat) (Text.padded 2 (s.natAbs % 3600 / 60)).toList :=
  isField_digits (by decide) (Int.natCast_nonneg _) (by norm_cast; omega)

theorem toList_offsetText (s : Int) : (offsetText s).toList = (if s < 0 then '-' else '+') ::
    ((Text.padded 2 (s.natAbs / 3600)).toList ++ ':' ::
      (Text.padded 2 (s.natAbs % 3600 / 60)).toList) := by
  unfold offsetText
  split <;> simp

/-- **A written offset** of whole minutes is read as itself. -/
theorem offset_offsetText {s : Int} (hs : s.natAbs < 86400) (hwhole : 60 ∣ s) :
    offset? (offsetText s).toList = some s := by
  have hparts := fun sign factor hsign => @offset_parts sign factor _ _ _ _ hsign (isField_hours hs)
    (isField_minutes s) (by omega) (by omega)
  rw [toList_offsetText]
  split
  · rw [hparts '-' (-1) (.inr ⟨rfl, rfl⟩), Option.some.injEq]
    omega
  · rw [hparts '+' 1 (.inl ⟨rfl, rfl⟩), Option.some.injEq]
    omega

/-- An offset of whole minutes is written without seconds. -/
theorem zoneText_of_dvd {s : Int} (h : 60 ∣ s) :
    zoneText s = if s = 0 then "Z" else offsetText s := by
  rw [zoneText, if_pos (Int.emod_eq_zero_of_dvd h)]

/-- **The offset in the text of a moment** begins with a mark, and is read as itself if it has whole
minutes. -/
theorem zoneText_eq {s : Int} (hs : s.natAbs < 86400) (hwhole : 60 ∣ s) :
    ∃ c cs, (zoneText s).toList = c :: cs ∧ (c = '-' ∨ c = '+' ∨ c = 'Z' ∨ c = 'z') ∧
      offset? (c :: cs) = some s := by
  rw [zoneText_of_dvd hwhole]
  split
  · rename_i hzero
    subst hzero
    exact ⟨'Z', [], rfl, by simp, rfl⟩
  · refine ⟨_, _, toList_offsetText s, ?_, toList_offsetText s ▸ offset_offsetText hs hwhole⟩
    split <;> simp

theorem zoneText_ascii {s : Int} (hs : s.natAbs < 86400) (hwhole : 60 ∣ s) :
    ∀ c ∈ (zoneText s).toList, c.toNat < 128 := by
  rw [zoneText_of_dvd hwhole]
  split
  · exact List.forall_mem_singleton.mpr (by decide)
  · rw [toList_offsetText]
    refine List.forall_mem_cons.mpr ⟨by split <;> decide, List.forall_mem_append.mpr
      ⟨(isField_hours hs).ascii, List.forall_mem_cons.mpr ⟨by decide, (isField_minutes s).ascii⟩⟩⟩

end

/-! ### Moments -/

/-- The ISO text of a moment with an offset, character by character. -/
theorem text_eq {m : Moment} {s : Int} (hs : m.offset = some s) : m.text.toList =
    (digits 4 m.year).toList ++ '-' :: ((digits 2 m.month).toList ++ '-' :: ((digits 2 m.day).toList ++
      'T' :: ((digits 2 m.hour).toList ++ ':' :: ((digits 2 m.minute).toList ++ ':' ::
        ((digits 2 m.second).toList ++ '.' :: ((digits 3 (m.microsecond / 1000)).toList ++
          (zoneText s).toList)))))) := by
  unfold text
  rw [hs]
  simp

theorem daysIn_le (year month : Int) : Calendar.daysIn year month ≤ 31 := by
  unfold Calendar.daysIn
  split_ifs <;> decide

/-- A time of day with an offset. -/
theorem time_eq {m : Moment} {hour minute second thousandths s : Int} {hs ms ss fs zone : List Char}
    (hhour : IsField 2 hour hs) (hminute : IsField 2 minute ms) (hsecond : IsField 2 second ss)
    (hfraction : IsField 3 thousandths fs) {c : Char} {cs : List Char} (hzone : zone = c :: cs)
    (hsign : c = '-' ∨ c = '+' ∨ c = 'Z' ∨ c = 'z') (hoffset : offset? (c :: cs) = some s) :
    time? m (hs ++ ':' :: (ms ++ ':' :: (ss ++ '.' :: (fs ++ zone)))) = some
      { m with hour, minute, second, microsecond := thousandths * 1000, offset := some s } := by
  have hlength : ¬ (hs ++ ':' :: (ms ++ ':' :: (ss ++ '.' :: (fs ++ zone)))).length < 2 := by
    simp [hhour.length]
    omega
  have hdigit : ∀ d ∈ zone.head?, d.isDigit = false := by
    rw [hzone]
    rintro d hd
    cases hd
    rcases hsign with rfl | rfl | rfl | rfl <;> rfl
  rw [time?, if_neg hlength, timeFrom_hour hhour, timeFrom_minute hminute, timeFrom_second hsecond,
    timeFrom_fraction hfraction hdigit, hzone, timeFrom_offset hsign hoffset]

/-- The numbers of a moment as they are written, each in its field. -/
theorem isField_parts {m : Moment} (hm : m.Valid) :
    IsField 4 m.year (digits 4 m.year).toList ∧ IsField 2 m.month (digits 2 m.month).toList ∧
      IsField 2 m.day (digits 2 m.day).toList ∧ IsField 2 m.hour (digits 2 m.hour).toList ∧
      IsField 2 m.minute (digits 2 m.minute).toList ∧
      IsField 2 m.second (digits 2 m.second).toList ∧
      IsField 3 (m.microsecond / 1000) (digits 3 (m.microsecond / 1000)).toList := by
  obtain ⟨⟨hy, hy'⟩, ⟨hmo, hmo'⟩, ⟨hd, hd'⟩, ⟨hh, hh'⟩, ⟨hmi, hmi'⟩, ⟨hse, hse'⟩, hus, hus'⟩ := hm
  have hdays := daysIn_le m.year m.month
  refine ⟨?_, ?_, ?_, ?_, ?_, ?_, ?_⟩
  · exact isField_digits (by decide) (by omega) (by norm_num; omega)
  · exact isField_digits (by decide) (by omega) (by norm_num; omega)
  · exact isField_digits (by decide) (by omega) (by norm_num; omega)
  · exact isField_digits (by decide) hh (by norm_num; omega)
  · exact isField_digits (by decide) hmi (by norm_num; omega)
  · exact isField_digits (by decide) hse (by norm_num; omega)
  · exact isField_digits (by decide) (by omega) (by norm_num; omega)

/-- A valid moment is settled as it is. -/
theorem settle_of_valid {m : Moment} (hm : m.Valid) : settle m = .ok m := by
  have hhour : m.hour ≤ 23 := hm.2.2.2.1.2
  rw [settle, if_neg (by omega), if_pos hm]

/-- **The text of a moment is read** as the moment, to the millisecond, if its offset has whole
minutes. -/
theorem read_text {m : Moment} (hm : m.Valid) {s : Int} (hoffset : m.offset = some s)
    (hs : s.natAbs < 86400) (hwhole : 60 ∣ s) : Moment.read m.text = .ok
      { m with microsecond := m.microsecond / 1000 * 1000, offset := some s } := by
  obtain ⟨hyear, hmonth, hday, hhour, hminute, hsecond, hfraction⟩ := isField_parts hm
  obtain ⟨c, cs, hzone, hsign, hread⟩ := zoneText_eq hs hwhole
  have hascii : (m.text.toList.any fun c => decide (c.toNat ≥ 128)) = false := by
    have hall : ∀ c ∈ m.text.toList, c.toNat < 128 := by
      rw [text_eq hoffset]
      simp only [List.forall_mem_append, List.forall_mem_cons]
      exact ⟨hyear.ascii, by decide, hmonth.ascii, by decide, hday.ascii, by decide, hhour.ascii,
        by decide, hminute.ascii, by decide, hsecond.ascii, by decide, hfraction.ascii,
        zoneText_ascii hs hwhole⟩
    rw [List.any_eq_false]
    intro c hc
    simpa using hall c hc
  have hdate := @calendarDate_eq _ ('T' :: ((digits 2 m.hour).toList ++ ':' ::
    ((digits 2 m.minute).toList ++ ':' :: ((digits 2 m.second).toList ++ '.' ::
      ((digits 3 (m.microsecond / 1000)).toList ++ (zoneText s).toList))))) _ _ _ _ _ hyear hmonth hday
  have htime := @time_eq { year := m.year, month := m.month, day := m.day } _ _ _ _ _ _ _ _ _ _ hhour
    hminute hsecond hfraction c cs hzone hsign hread
  rw [← text_eq hoffset] at hdate
  obtain ⟨hy, hmo, hd, hh, hmi, hse, hus, hus'⟩ := hm
  have hmicrosecond : 0 ≤ m.microsecond / 1000 * 1000 ∧ m.microsecond / 1000 * 1000 ≤ 999999 := by
    omega
  unfold Moment.read
  simp only [hascii, hdate, bind, Except.bind, pure, Except.pure, htime, Bool.false_eq_true, if_false]
  exact settle_of_valid ⟨hy, hmo, hd, hh, hmi, hse, hmicrosecond⟩

end Moment

end Covenant
