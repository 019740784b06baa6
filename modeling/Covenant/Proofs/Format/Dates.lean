import Covenant.Format.Date
import Covenant.Proofs.Moment.Reading
import Covenant.Proofs.Outcome
import Covenant.Proofs.Pattern.Language
import Covenant.Proofs.Pattern.Primitives

/-!
Dates that are read in a format.

* `DateField.read_timed`: the text of a field gives a part that lies in its range.
* `DateTime.read_eq`, `DateTime.settle_cases`: what is made of the parts that a text gives.
* `DateTime.exists_moment`: what is read in a date format is the text of a moment.
* `DateTime.write_text`: the text of a moment is written in every date format.
-/

namespace Covenant

/-- **The month and the time are in range**, to the millisecond, and an offset has whole minutes; the
day and the year need not exist. -/
structure Moment.Timed (m : Moment) : Prop where
  month : 1 ≤ m.month ∧ m.month ≤ 12
  time : m.TimeInRange
  thousandths : 1000 ∣ m.microsecond
  minutes : ∀ s ∈ m.offset, 60 ∣ s

/-! ### Fields -/

namespace DateField

variable {f : DateField} {cs : List Char}

/-- The number of a field that is checked for each of the field's texts. -/
theorem digitsValue_of_texts {low high : Nat}
    (h : ((Symbol.pattern f.regex).toPattern.texts?.any (·.all fun cs =>
      decide (low ≤ Text.digitsValue cs ∧ Text.digitsValue cs ≤ high))) = true)
    (hcs : (Symbol.pattern f.regex).toPattern.Admits cs) :
    (low : Int) ≤ Text.digitsValue cs ∧ (Text.digitsValue cs : Int) ≤ high := by
  have hrange := of_decide_eq_true (Pattern.holds_of_texts h hcs)
  exact ⟨Int.ofNat_le.mpr hrange.1, Int.ofNat_le.mpr hrange.2⟩

/-- A month by its name. -/
theorem idxOf_of_texts {names : List String}
    (h : ((Symbol.pattern f.regex).toPattern.texts?.any (·.all fun cs =>
      decide (names.idxOf (String.ofList cs) ≤ 11))) = true)
    (hcs : (Symbol.pattern f.regex).toPattern.Admits cs) :
    1 ≤ (names.idxOf (String.ofList cs) : Int) + 1 ∧
      (names.idxOf (String.ofList cs) : Int) + 1 ≤ 12 := by
  have hle := of_decide_eq_true (Pattern.holds_of_texts h hcs)
  omega

/-- The thousandths of a second. -/
theorem digitsValue_millisecond
    (hcs : (Symbol.pattern DateField.millisecond.regex).toPattern.Admits cs) :
    Text.digitsValue cs ≤ 999 := by
  have hpattern : (Symbol.pattern DateField.millisecond.regex).toPattern =
      .rep Symbol.digitPattern 3 (some 0) false := by
    decide +kernel
  rw [hpattern] at hcs
  obtain ⟨hdigits, hleast⟩ := Pattern.digits_of_admits hcs
  have hlength : cs.length = 3 := Nat.le_antisymm ((Pattern.exists_of_admits_class hcs).2.2 0 rfl) hleast
  have hlt := Decimal.digitsValue_lt hdigits
  rw [hlength] at hlt
  omega

/-- Offsets that are read have whole minutes. -/
theorem dvd_offsetOf (cs : List Char) : 60 ∣ offsetOf cs := by
  unfold offsetOf
  split
  · split
    · exact Int.dvd_zero _
    · dsimp only
      split <;> omega
  · exact Int.dvd_zero _

/-- **The text of a field gives a part in its range.** -/
theorem read_timed (hcs : (Symbol.pattern f.regex).toPattern.Admits cs) {m : Moment} (hm : m.Timed) :
    (f.read cs m).Timed := by
  obtain ⟨hmonth, htime, hround, hoffset⟩ := hm
  obtain ⟨hhour, hminute, hsecond, hmicrosecond⟩ := htime
  have htimed : ∀ {m' : Moment}, m'.microsecond = m.microsecond → m'.offset = m.offset →
      (1 ≤ m'.month ∧ m'.month ≤ 12) → (0 ≤ m'.hour ∧ m'.hour ≤ 23) →
        (0 ≤ m'.minute ∧ m'.minute ≤ 59) → (0 ≤ m'.second ∧ m'.second ≤ 59) → m'.Timed :=
    fun hmicrosecond' hoffset' hmonth hhour hminute hsecond =>
      ⟨hmonth, ⟨hhour, hminute, hsecond, hmicrosecond' ▸ hmicrosecond⟩, hmicrosecond' ▸ hround,
        hoffset' ▸ hoffset⟩
  cases f with
  | year | shortYear | day2 | day => exact htimed rfl rfl hmonth hhour hminute hsecond
  | monthName =>
    exact htimed rfl rfl (idxOf_of_texts (by decide +kernel) hcs) hhour hminute hsecond
  | monthShort =>
    exact htimed rfl rfl (idxOf_of_texts (by decide +kernel) hcs) hhour hminute hsecond
  | month2 | month =>
    exact htimed rfl rfl (digitsValue_of_texts (by decide +kernel) hcs) hhour hminute hsecond
  | hour2 | hour =>
    exact htimed rfl rfl hmonth (digitsValue_of_texts (by decide +kernel) hcs) hminute hsecond
  | minute =>
    exact htimed rfl rfl hmonth hhour (digitsValue_of_texts (by decide +kernel) hcs) hsecond
  | second =>
    exact htimed rfl rfl hmonth hhour hminute (digitsValue_of_texts (by decide +kernel) hcs)
  | millisecond =>
    have hle := digitsValue_millisecond hcs
    refine ⟨hmonth, ⟨hhour, hminute, hsecond, ?_, ?_⟩, Int.dvd_mul_left _ _, hoffset⟩
    · change 0 ≤ (Text.digitsValue cs : Int) * 1000
      omega
    · change (Text.digitsValue cs : Int) * 1000 ≤ 999999
      omega
  | zone =>
    refine ⟨hmonth, ⟨hhour, hminute, hsecond, hmicrosecond⟩, hround, fun s hs => ?_⟩
    cases hs
    exact dvd_offsetOf cs

end DateField

/-! ### Formats -/

/-- The parts that the pieces of a text give are in range. -/
theorem DateFormat.collect_timed {f : DateFormat} {pieces : List (List Char)}
    (h : List.Forall₂ (fun (t : DateToken) cs => t.symbol.toPattern.Admits cs) f.tokens pieces) :
    (f.collect pieces).Timed := by
  have hstart : ({} : Moment).Timed := ⟨by decide, by decide, Int.dvd_zero _, nofun⟩
  unfold collect
  revert hstart
  generalize f.tokens = tokens at h ⊢
  generalize ({} : Moment) = m
  intro hm
  induction h generalizing m with
  | nil => exact hm
  | @cons t cs ts pieces hcs _ ih =>
    rw [List.zip_cons_cons, List.foldl_cons]
    apply ih
    cases t with
    | field field => exact field.read_timed hcs hm
    | literal text => exact hm

/-- The pieces that a text is cut into are texts of the pieces of the format. -/
theorem DateFormat.admits_of_split {f : DateFormat} {text : String} {pieces : List (List Char)}
    (h : splitBySymbols? f.symbols text = some pieces) :
    List.Forall₂ (fun (t : DateToken) cs => t.symbol.toPattern.Admits cs) f.tokens pieces ∧
      pieces.flatten = text.toList := by
  obtain ⟨hall, hflatten⟩ := Pattern.admits_of_split h
  rw [symbols, List.map_map, List.forall₂_map_left_iff] at hall
  exact ⟨hall, hflatten⟩

namespace DateTime

variable {text format t : String} {clock : Option Int} {zone : Zone}

/-- A moment that is read, with the offset of a clock or of a zone if the text has none. -/
def withClock (m : Moment) (clock : Option Int) (zone : Zone) : Moment :=
  { m with offset := some (m.offset.getD (clock.getD (zone.offsetAt m))) }

/-- **Whole minutes** are what the clock shows, or else what the clocks of the zone show. -/
structure WholeMinutes (clock : Option Int) (zone : Zone) : Prop where
  ofClock : ∀ c ∈ clock, 60 ∣ c
  ofZone : clock = none → ∀ m, 60 ∣ zone.offsetAt m

def settle (text format : String) (m : Moment) : Outcome String :=
  if ¬m.YearInRange then .fail (.reading (.moment text format (.year m.year.toNat)))
  else if ¬m.DayInRange then .fail (.reading (.moment text format .day))
  else if (m.offset.getD 0).natAbs ≥ 86400 then .fail .undefined
  else .ok m.text

/-- **Reading**: the text is cut by the format, and its parts are settled. -/
theorem read_eq {f : DateFormat} (hf : DateFormat.ofString format = .ok f) (text : String)
    (clock : Option Int) (zone : Zone) :
    read text format clock zone = match splitBySymbols? f.symbols text with
      | none => .fail (.reading (.date text format))
      | some pieces => settle text format (withClock (f.collect pieces) clock zone) := by
  unfold read
  rw [hf]
  rfl

/-- **Parts are refused** if their year or their day does not exist; else their offset decides. -/
theorem settle_cases (text format : String) (m : Moment) :
    (¬ (m.YearInRange ∧ m.DayInRange) ∧
      ∃ why, settle text format m = .fail (.reading (.moment text format why))) ∨
    (m.YearInRange ∧ m.DayInRange ∧ 86400 ≤ (m.offset.getD 0).natAbs ∧
      settle text format m = .fail .undefined) ∨
    (m.YearInRange ∧ m.DayInRange ∧ (m.offset.getD 0).natAbs < 86400 ∧
      settle text format m = .ok m.text) := by
  unfold settle
  by_cases hyear : m.YearInRange
  · rw [if_neg (not_not.mpr hyear)]
    by_cases hday : m.DayInRange
    · rw [if_neg (not_not.mpr hday)]
      by_cases hoffset : (m.offset.getD 0).natAbs ≥ 86400
      · exact .inr (.inl ⟨hyear, hday, hoffset, if_pos hoffset⟩)
      · exact .inr (.inr ⟨hyear, hday, Nat.lt_of_not_le hoffset, if_neg hoffset⟩)
    · exact .inl ⟨fun h => hday h.2, .day, if_pos hday⟩
  · exact .inl ⟨fun h => hyear h.1, .year m.year.toNat, if_pos hyear⟩

theorem settle_eq_ok_iff {m : Moment} : settle text format m = .ok t ↔
    m.YearInRange ∧ m.DayInRange ∧ (m.offset.getD 0).natAbs < 86400 ∧ m.text = t := by
  rcases settle_cases text format m with ⟨hnot, why, h⟩ | ⟨_, _, hoffset, h⟩ | ⟨hyear, hday, hoffset, h⟩
  · rw [h]
    exact ⟨nofun, fun h => absurd ⟨h.1, h.2.1⟩ hnot⟩
  · rw [h]
    exact ⟨nofun, fun h => absurd h.2.2.1 (Nat.not_lt.mpr hoffset)⟩
  · rw [h]
    exact ⟨fun h => ⟨hyear, hday, hoffset, Except.ok.inj h⟩, fun h => congrArg Except.ok h.2.2.2⟩

/-- The month and the time of what is read are in range, whatever the clock. -/
theorem valid_withClock {f : DateFormat} {pieces : List (List Char)}
    (hsplit : splitBySymbols? f.symbols text = some pieces) (clock : Option Int) (zone : Zone)
    (hyear : (withClock (f.collect pieces) clock zone).YearInRange)
    (hday : (withClock (f.collect pieces) clock zone).DayInRange) :
    (withClock (f.collect pieces) clock zone).Valid := by
  obtain ⟨hall, -⟩ := DateFormat.admits_of_split hsplit
  obtain ⟨hmonth, htime, -, -⟩ := DateFormat.collect_timed hall
  exact ⟨hyear, hmonth, hday, htime⟩

/-- The offset of what is read has whole minutes, as that of the clock has. -/
theorem dvd_withClock {f : DateFormat} {pieces : List (List Char)}
    (hsplit : splitBySymbols? f.symbols text = some pieces) (hclock : WholeMinutes clock zone) :
    60 ∣ (f.collect pieces).offset.getD (clock.getD (zone.offsetAt (f.collect pieces))) := by
  obtain ⟨hall, -⟩ := DateFormat.admits_of_split hsplit
  have hminutes := (DateFormat.collect_timed hall).minutes
  cases hoffset : (f.collect pieces).offset with
  | some s => exact hminutes s hoffset
  | none =>
    cases clock with
    | none => exact hclock.ofZone rfl _
    | some c => exact hclock.ofClock c rfl

/-- **What is read in a date format** is the text of a moment with an offset of less than a day; it
has whole minutes, as that of the clock has. -/
theorem exists_moment (h : read text format clock zone = .ok t) (hclock : WholeMinutes clock zone) :
    ∃ m : Moment, ∃ s, m.Valid ∧ m.offset = some s ∧ s.natAbs < 86400 ∧ 60 ∣ s ∧ t = m.text := by
  obtain ⟨f, hf, -⟩ := Outcome.bind_eq_ok.mp h
  rw [read_eq hf] at h
  split at h
  · cases h
  · rename_i pieces hsplit
    obtain ⟨hyear, hday, hoffset, rfl⟩ := settle_eq_ok_iff.mp h
    exact ⟨_, _, valid_withClock hsplit clock zone hyear hday, rfl, hoffset,
      dvd_withClock hsplit hclock, rfl⟩

/-- **The text of a moment is written** in every date format. -/
theorem write_text {f : DateFormat} (hf : DateFormat.ofString format = .ok f) {m : Moment}
    (hm : m.Valid) {s : Int} (hoffset : m.offset = some s) (hs : s.natAbs < 86400) (hwhole : 60 ∣ s) :
    ∃ t, write (.text m.text) format = .ok t := by
  unfold write
  simp only [Moment.read_text hm hoffset hs hwhole, hf]
  exact ⟨_, rfl⟩

end DateTime

end Covenant
