import Covenant.Proofs.Format.Readings

/-!
What is read in date formats.

* `Moment.iso_text`: the text of a moment is that of ISO 8601, to the millisecond, with its offset.
* `DateTime.read_answers`: a text in a date format is such a text of a moment, or it is refused, or
  its offset is a day or more.
* `DateTime.not_answered_day`: the last is no refusal.
-/

namespace Covenant

namespace Moment

/-- The seconds of an offset, if it has not whole minutes. -/
def IsSeconds (s : Int) (cs : List Char) : Prop :=
  (60 ∣ s ∧ cs = []) ∨ (¬ 60 ∣ s ∧ ∃ ss, IsField 2 (s.natAbs % 60 : Nat) ss ∧ cs = ':' :: ss)

/-- **An offset in the notation of ISO 8601**: `Z` if it is zero, else hours and minutes behind a
sign. ISO 8601 has no seconds there; they are added to an offset that needs them. -/
def IsZone (s : Int) (zone : List Char) : Prop :=
  (s = 0 ∧ zone = ['Z']) ∨ (s ≠ 0 ∧ ∃ hs ns cs, IsField 2 (s.natAbs / 3600 : Nat) hs ∧
    IsField 2 (s.natAbs % 3600 / 60 : Nat) ns ∧ IsSeconds s cs ∧
      zone = (if s < 0 then '-' else '+') :: (hs ++ ':' :: (ns ++ cs)))

/-- **A moment in the notation of ISO 8601**: its date and its time to the millisecond, each number
with all its digits, and its offset. -/
def Iso (m : Moment) (s : Int) (cs : List Char) : Prop :=
  ∃ ys mos ds hs mis ss fs zone, IsField 4 m.year ys ∧ IsField 2 m.month mos ∧ IsField 2 m.day ds ∧
    IsField 2 m.hour hs ∧ IsField 2 m.minute mis ∧ IsField 2 m.second ss ∧
    IsField 3 (m.microsecond / 1000) fs ∧ IsZone s zone ∧
    cs = ys ++ '-' :: (mos ++ '-' :: (ds ++ 'T' :: (hs ++ ':' :: (mis ++ ':' ::
      (ss ++ '.' :: (fs ++ zone))))))

theorem isZone_zoneText {s : Int} (hs : s.natAbs < 86400) : IsZone s (zoneText s).toList := by
  unfold zoneText
  split
  · rename_i hzero
    exact .inl ⟨hzero, rfl⟩
  · rename_i hne
    right
    split
    · rename_i hwhole
      refine ⟨hne, _, _, [], isField_hours hs, isField_minutes s,
        .inl ⟨Int.dvd_of_emod_eq_zero hwhole, rfl⟩, ?_⟩
      rw [List.append_nil, toList_offsetText]
    · rename_i hwhole
      have hseconds : IsField 2 (s.natAbs % 60 : Nat) (Text.padded 2 (s.natAbs % 60)).toList :=
        isField_digits (by decide) (Int.natCast_nonneg _) (by norm_cast; omega)
      refine ⟨hne, _, _, _, isField_hours hs, isField_minutes s,
        .inr ⟨fun h => hwhole (Int.emod_eq_zero_of_dvd h), _, hseconds, rfl⟩, ?_⟩
      rw [String.toList_append, String.toList_append, toList_offsetText]
      simp

/-- **The text of a moment** is that of ISO 8601. -/
theorem iso_text {m : Moment} (hm : m.Valid) {s : Int} (hoffset : m.offset = some s)
    (hs : s.natAbs < 86400) : m.Iso s m.text.toList := by
  obtain ⟨hyear, hmonth, hday, hhour, hminute, hsecond, hfraction⟩ := isField_parts hm
  exact ⟨_, _, _, _, _, _, _, _, hyear, hmonth, hday, hhour, hminute, hsecond, hfraction,
    isZone_zoneText hs, text_eq hoffset⟩

end Moment

namespace DateTime

variable {format : String} {f : DateFormat}

/-- An offset of a day or more is that of a text, or that of the zone where there is no clock. -/
theorem offset_of_day {o clock : Option Int} {s : Int} (h : 86400 ≤ (o.getD (clock.getD s)).natAbs)
    (hclock : ∀ c ∈ clock, c.natAbs < 86400) : o = some (o.getD (clock.getD s)) ∨
      o = none ∧ clock = none ∧ o.getD (clock.getD s) = s := by
  cases o with
  | some o => exact .inl rfl
  | none =>
    cases clock with
    | none => exact .inr ⟨rfl, rfl, rfl⟩
    | some c => exact absurd h (Nat.not_le.mpr (hclock c rfl))

/-- **What is read in a date format.** A text that the format does not match is refused. Of one that
it matches, the parts with the offset of the clock or else of the zone, if the text has none, are
refused if their year or their day does not exist; else they are a moment, and the text is read as
that moment in the notation of ISO 8601, unless its offset is a day or more. That of a text can be,
and that of a zone, but that of no clock is. Only from a clock or a zone can an offset have
seconds. -/
theorem read_answers (hf : DateFormat.ofString format = .ok f) (text : String)
    (clock : Option Int) (zone : Zone) :
    (splitBySymbols? f.symbols text = none ∧
      read text format clock zone = .fail (.reading (.date text format))) ∨
    ∃ pieces m s, splitBySymbols? f.symbols text = some pieces ∧
      m = withClock (f.collect pieces) clock zone ∧ m.offset = some s ∧
      ((¬ (m.YearInRange ∧ m.DayInRange) ∧
          ∃ why, read text format clock zone = .fail (.reading (.moment text format why))) ∨
        (m.Valid ∧ 86400 ≤ s.natAbs ∧
          ((∀ c ∈ clock, c.natAbs < 86400) → (f.collect pieces).offset = some s ∨
            (f.collect pieces).offset = none ∧ clock = none ∧
              s = zone.offsetAt (f.collect pieces)) ∧
          read text format clock zone = .fail .undefined) ∨
        (m.Valid ∧ s.natAbs < 86400 ∧ (WholeMinutes clock zone → 60 ∣ s) ∧
          ∃ t, read text format clock zone = .ok t ∧ m.Iso s t.toList)) := by
  rw [read_eq hf]
  cases hsplit : splitBySymbols? f.symbols text with
  | none => exact .inl ⟨rfl, rfl⟩
  | some pieces =>
    right
    refine ⟨pieces, withClock (f.collect pieces) clock zone, _, rfl, rfl, rfl, ?_⟩
    rcases settle_cases text format (withClock (f.collect pieces) clock zone) with
      hrefused | ⟨hyear, hday, hoffset, h⟩ | ⟨hyear, hday, hoffset, h⟩
    · exact .inl hrefused
    · have hvalid := valid_withClock hsplit clock zone hyear hday
      exact .inr (.inl ⟨hvalid, hoffset, offset_of_day hoffset, h⟩)
    · have hvalid := valid_withClock hsplit clock zone hyear hday
      exact .inr (.inr ⟨hvalid, hoffset, dvd_withClock hsplit, _, h,
        Moment.iso_text hvalid rfl hoffset⟩)

/-- Day, month and year. -/
def dotted : DateFormat where
  tokens := [.field .day, .literal ['.'], .field .month, .literal ['.'], .field .year]

/-- The last of February is refused where it does not exist, and read by the clocks of a zone where it
does. -/
theorem read_answers_february : DateFormat.ofString "D.M.YYYY" = .ok dotted ∧
    (∃ why, read "31.2.2024" "D.M.YYYY" none =
      .fail (.reading (.moment "31.2.2024" "D.M.YYYY" why))) ∧
    ∃ t, read "29.2.2024" "D.M.YYYY" none ⟨fun _ => 3600⟩ = .ok t ∧
      Moment.Iso { year := 2024, month := 2, day := 29, offset := some 3600 } 3600 t.toList := by
  have hformat : DateFormat.ofString "D.M.YYYY" = .ok dotted := by rfl
  have hlate : splitBySymbols? dotted.symbols "31.2.2024" =
      some (["31", ".", "2", ".", "2024"].map String.toList) := by
    decide +kernel
  have hleap : splitBySymbols? dotted.symbols "29.2.2024" =
      some (["29", ".", "2", ".", "2024"].map String.toList) := by
    decide +kernel
  have hday : ¬ (withClock (dotted.collect (["31", ".", "2", ".", "2024"].map String.toList))
      none {}).DayInRange := by
    decide +kernel
  have hmoment : withClock (dotted.collect (["29", ".", "2", ".", "2024"].map String.toList))
      none ⟨fun _ => 3600⟩ = { year := 2024, month := 2, day := 29, offset := some 3600 } := by
    decide +kernel
  refine ⟨hformat, ?_, ?_⟩
  · rcases read_answers hformat "31.2.2024" none {} with
      ⟨hnone, -⟩ | ⟨pieces, m, s, hpieces, rfl, -, ⟨-, h⟩ | ⟨hvalid, -⟩ | ⟨hvalid, -⟩⟩
    · cases hnone.symm.trans hlate
    · exact h
    · cases hpieces.symm.trans hlate
      exact absurd hvalid.2.2.1 hday
    · cases hpieces.symm.trans hlate
      exact absurd hvalid.2.2.1 hday
  · rcases read_answers hformat "29.2.2024" none ⟨fun _ => 3600⟩ with
      ⟨hnone, -⟩ | ⟨pieces, m, s, hpieces, rfl, hoffset, h⟩
    · cases hnone.symm.trans hleap
    · cases hpieces.symm.trans hleap
      rw [hmoment] at hoffset h
      cases hoffset
      rcases h with ⟨hnone, -⟩ | ⟨-, hlong, -⟩ | ⟨-, -, -, h⟩
      · exact absurd (by decide) hnone
      · exact absurd hlong (by decide)
      · exact h

/-- **An offset of a day is no moment, and it is not refused.** -/
theorem not_answered_day : DateFormat.ofString "Z" = .ok ⟨[.field .zone]⟩ ∧
    splitBySymbols? (DateFormat.symbols ⟨[.field .zone]⟩) "+24:00" = some ["+24:00".toList] ∧
    ¬ (read "+24:00" "Z" none).Answered := by
  have hformat : DateFormat.ofString "Z" = .ok ⟨[.field .zone]⟩ := by rfl
  have hsplit : splitBySymbols? (DateFormat.symbols ⟨[.field .zone]⟩) "+24:00" =
      some ["+24:00".toList] := by
    decide +kernel
  have hread : read "+24:00" "Z" none = .fail .undefined := by
    rw [read_eq hformat, hsplit]
    rfl
  refine ⟨hformat, hsplit, ?_⟩
  rw [hread]
  rintro (⟨t, ht⟩ | ⟨r, hr⟩)
  · cases ht
  · cases hr

end DateTime

end Covenant
