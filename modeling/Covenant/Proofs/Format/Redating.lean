import Covenant.Proofs.Format.Fields

/-!
Dates that are read, written and read again.

* `DateFormat.Delimited`: a format whose numbers without leading zeros end where a digit cannot go on.
* `DateToken.pieces_unique`: a text can be cut in one way only by such a format.
* `DateToken.part_gather_written`: what is written for a moment is read as the parts that it was read from.
* `DateTime.read_write_read`: what is read in such a format is written as a text that is read as the
  same.
-/

namespace Covenant

namespace DateToken

/-- Whether the texts of a piece are numbers without leading zeros. -/
def bare : DateToken → Bool
  | .field f => f.bare
  | .literal _ => false

/-- Whether no text of a piece begins with a digit. -/
def worded : DateToken → Bool
  | .field f => f.worded
  | .literal cs => DateField.startsPlain cs

def Admits (t : DateToken) (cs : List Char) : Prop :=
  t.symbol.toPattern.Admits cs

/-- Sets the part of a moment that the text of a piece gives, if it gives any. -/
def read (t : DateToken) (cs : List Char) (m : Moment) : Moment :=
  match t with
  | .field f => f.read cs m
  | .literal _ => m

def write (t : DateToken) (m : Moment) : String :=
  match t with
  | .field f => f.write m
  | .literal cs => String.ofList cs

variable {t : DateToken} {cs ds : List Char}

theorem admits_literal_iff {ts : List Char} : (literal ts).Admits cs ↔ cs = ts :=
  Pattern.admits_literalSymbol_iff

theorem startsPlain_of_worded (ht : t.worded = true) (h : t.Admits cs) :
    DateField.startsPlain cs = true := by
  cases t with
  | field f => exact DateField.startsPlain_of_worded ht h
  | literal ts =>
    rw [admits_literal_iff.mp h]
    exact ht

theorem eq_of_leads (ht : t.bare = false) (h : t.Admits cs) (h' : t.Admits ds)
    (hleads : cs <+: ds) : cs = ds := by
  cases t with
  | field f => exact DateField.eq_of_leads ht h h' hleads
  | literal ts => rw [admits_literal_iff.mp h, admits_literal_iff.mp h']

theorem admits_write {w : Moment} (hw : w.Told) : t.Admits (t.write w).toList := by
  cases t with
  | field f => exact DateField.admits_write hw
  | literal ts => exact admits_literal_iff.mpr String.toList_ofList

end DateToken

/-! ### Cutting texts -/

/-- **A format in which every number without leading zeros ends where no digit can go on**: it is the
last piece, or no text of the piece behind it begins with a digit. -/
def DateFormat.Delimited (f : DateFormat) : Prop :=
  f.tokens.IsChain fun t t' => t.bare = true → t'.worded = true

namespace DateToken

variable {ts : List DateToken} {ps qs : List (List Char)}

/-- Digits in front of what is no digit. -/
theorem takeWhile_digits {cs rest : List Char} (hcs : ∀ c ∈ cs, c.isDigit = true)
    (hrest : rest = [] ∨ DateField.startsPlain rest = true) :
    (cs ++ rest).takeWhile Char.isDigit = cs := by
  rw [List.takeWhile_append_of_pos hcs]
  rcases hrest with rfl | hrest
  · simp
  · cases rest with
    | nil => simp
    | cons c rest =>
      have hc : ¬ c.isDigit = true := by simpa [DateField.startsPlain] using hrest
      rw [List.takeWhile_cons_of_neg hc, List.append_nil]

theorem startsPlain_append {cs : List Char} (h : DateField.startsPlain cs = true)
    (rest : List Char) : DateField.startsPlain (cs ++ rest) = true := by
  cases cs with
  | nil => cases h
  | cons c cs => exact h

/-- What follows a number without leading zeros is no digit. -/
theorem rest_of_bare {t : DateToken} (hchain : (t :: ts).IsChain fun t t' =>
    t.bare = true → t'.worded = true) (ht : t.bare = true) (h : List.Forall₂ Admits ts ps) :
    ps.flatten = [] ∨ DateField.startsPlain ps.flatten = true := by
  cases h with
  | nil => exact .inl rfl
  | cons hcs _ =>
    have hworded := (List.isChain_cons_cons.mp hchain).1 ht
    exact .inr (startsPlain_append (startsPlain_of_worded hworded hcs) _)

/-- **The first piece of a text** ends where it ends, however the text is cut. -/
theorem first_unique {t : DateToken} {cs ds : List Char} (hchain : (t :: ts).IsChain fun t t' =>
    t.bare = true → t'.worded = true) (hcs : t.Admits cs) (hds : t.Admits ds)
    (h : List.Forall₂ Admits ts ps) (h' : List.Forall₂ Admits ts qs)
    (heq : cs ++ ps.flatten = ds ++ qs.flatten) : cs = ds := by
  cases ht : t.bare with
  | false =>
    rcases List.prefix_or_prefix_of_prefix (List.prefix_append cs ps.flatten)
      (heq ▸ List.prefix_append ds qs.flatten) with hleads | hleads
    · exact eq_of_leads ht hcs hds hleads
    · exact (eq_of_leads ht hds hcs hleads).symm
  | true =>
    obtain ⟨f, rfl⟩ : ∃ f, t = .field f := by
      cases t with
      | field f => exact ⟨f, rfl⟩
      | literal _ => cases ht
    calc cs
      _ = (cs ++ ps.flatten).takeWhile Char.isDigit :=
        (takeWhile_digits (DateField.digits_of_bare ht hcs) (rest_of_bare hchain ht h)).symm
      _ = (ds ++ qs.flatten).takeWhile Char.isDigit := by rw [heq]
      _ = ds := takeWhile_digits (DateField.digits_of_bare ht hds) (rest_of_bare hchain ht h')

/-- **A text is cut in one way only** where numbers end where no digit can go on. -/
theorem pieces_unique (hchain : ts.IsChain fun t t' => t.bare = true → t'.worded = true)
    (h : List.Forall₂ Admits ts ps) (h' : List.Forall₂ Admits ts qs)
    (hflatten : qs.flatten = ps.flatten) : qs = ps := by
  induction h generalizing qs with
  | nil =>
    cases h'
    rfl
  | cons hcs hps ih =>
    cases h' with
    | cons hds hqs =>
      obtain rfl := first_unique hchain hds hcs hqs hps hflatten
      rw [ih hchain.tail hqs (List.append_cancel_left hflatten)]

/-! ### Parts that pieces give -/

/-- The parts that pieces with their texts give, from left to right. -/
def gather (pairs : List (DateToken × List Char)) : Moment :=
  pairs.foldl (fun m q => q.1.read q.2 m) {}

variable {pairs : List (DateToken × List Char)} {q : DateToken × List Char}

theorem gather_snoc : gather (pairs ++ [q]) = q.1.read q.2 (gather pairs) := by
  rw [gather, List.foldl_append]
  rfl

/-- An offset that is read is not forgotten. -/
theorem gather_offset (h : .field .zone ∈ pairs.map Prod.fst) : (gather pairs).offset ≠ none := by
  induction pairs using List.reverseRecOn with
  | nil => cases h
  | append_singleton pairs q ih =>
    rw [List.map_append, List.mem_append] at h
    rw [gather_snoc]
    obtain ⟨t, cs⟩ := q
    rcases h with h | h
    · have hrest := ih h
      cases t with
      | literal _ => exact hrest
      | field f => cases f <;> first | exact hrest | exact Option.some_ne_none _
    · obtain rfl : DateToken.field .zone = t := List.mem_singleton.mp h
      exact Option.some_ne_none _

/-- The years that two digits stand for. -/
theorem year_of_shortYear {cs : List Char} {m w : Moment} (hcs : DateField.shortYear.Admits cs)
    (h : (DateField.shortYear.read cs m).part .year = w.part .year) :
    1969 ≤ w.year ∧ w.year ≤ 2068 := by
  have hlt := DateField.digitsValue_shortYear hcs
  have hyear : (Text.digitsValue cs : Int) + (if (Text.digitsValue cs : Int) > 68 then 1900 else 2000) =
      w.year := Option.some.inj h
  split at hyear <;> omega

/-- **What is written for a moment is read as the parts that it was read from**, if the moment has
the parts that were read last. A part may be read several times: the last one counts, and only of it
is known that it is written as a text that is read as the same. -/
theorem part_gather_written {w : Moment} (hw : w.Told) {p : Moment.Part}
    (hpairs : ∀ q ∈ pairs, q.1.Admits q.2)
    (hp : ∀ f cs, (.field f, cs) ∈ pairs → f.part = p → (gather pairs).part p = w.part p) :
    (gather (pairs.map fun q => (q.1, (q.1.write w).toList))).part p = (gather pairs).part p := by
  induction pairs using List.reverseRecOn with
  | nil => rfl
  | append_singleton pairs q ih =>
    obtain ⟨hfront, hq⟩ := List.forall_mem_append.mp hpairs
    obtain ⟨t, cs⟩ := q
    have hcs := hq _ (List.mem_singleton_self _)
    rw [List.map_append, List.map_singleton, gather_snoc, gather_snoc]
    cases t with
    | literal ts =>
      apply ih hfront
      intro f ds hmem hpart
      have hkept := hp f ds (List.mem_append_left _ hmem) hpart
      rwa [gather_snoc] at hkept
    | field f =>
      by_cases hpart : f.part = p
      · have hlast := hp f cs (List.mem_append_right _ (List.mem_singleton_self _)) hpart
        rw [gather_snoc] at hlast
        subst hpart
        refine Eq.trans ?_ hlast.symm
        apply DateField.part_read_write hw
        rintro rfl
        exact year_of_shortYear hcs hlast
      · have hkept : ∀ cs m, (DateToken.read (.field f) cs m).part p = m.part p :=
          fun cs m => DateField.part_read_of_ne hpart
        rw [hkept, hkept]
        apply ih hfront
        intro g ds hmem hg
        have hearlier := hp g ds (List.mem_append_left _ hmem) hg
        rwa [gather_snoc, hkept] at hearlier

end DateToken

/-! ### Reading what was written -/

namespace DateFormat

open DateToken (gather)

variable {f : DateFormat} {text : String} {pieces : List (List Char)}

theorem collect_eq (f : DateFormat) (pieces : List (List Char)) :
    f.collect pieces = gather (f.tokens.zip pieces) :=
  rfl

theorem toList_write (f : DateFormat) (w : Moment) :
    (f.write w).toList = (f.tokens.map fun t => (t.write w).toList).flatten := by
  have hwrite : f.write w = String.join (f.tokens.map fun t => t.write w) := rfl
  rw [hwrite, String.toList_join, List.flatMap_map, List.flatMap_def]

/-- **What is written is cut as it was written**, if numbers end where no digit can go on. -/
theorem split_write (hf : f.Delimited) {w : Moment} (hw : w.Told) :
    splitBySymbols? f.symbols (f.write w) = some (f.tokens.map fun t => (t.write w).toList) := by
  have hall : List.Forall₂ DateToken.Admits f.tokens (f.tokens.map fun t => (t.write w).toList) := by
    rw [List.forall₂_map_right_iff, List.forall₂_same]
    exact fun t _ => DateToken.admits_write hw
  rw [splitBySymbols?, toList_write, symbols, List.map_map]
  apply Pattern.split_of_unique
  · exact List.forall₂_map_left_iff.mpr hall
  · intro found hfound hflatten
    rw [List.forall₂_map_left_iff] at hfound
    exact DateToken.pieces_unique hf hall hfound hflatten

theorem map_fst_zip (hall : List.Forall₂ DateToken.Admits f.tokens pieces) :
    (f.tokens.zip pieces).map Prod.fst = f.tokens :=
  List.map_fst_zip (Nat.le_of_eq hall.length_eq)

/-- **The parts that are read from a text** are those that are read from it when it is written for a
moment that has them. -/
theorem collect_written (hall : List.Forall₂ DateToken.Admits f.tokens pieces) {w : Moment}
    (hw : w.Told) (hparts : ∀ g, .field g ∈ f.tokens →
      (f.collect pieces).part g.part = w.part g.part) :
    f.collect (f.tokens.map fun t => (t.write w).toList) = f.collect pieces := by
  have hpairs : ∀ q ∈ f.tokens.zip pieces, q.1.Admits q.2 := fun q hq =>
    (List.forall₂_iff_zip.mp hall).2 hq
  have hzip : f.tokens.zip (f.tokens.map fun t => (t.write w).toList) =
      (f.tokens.zip pieces).map fun q => (q.1, (q.1.write w).toList) := by
    conv_lhs => rw [← map_fst_zip hall]
    rw [List.map_map, List.zip_map']
    rfl
  rw [collect_eq, collect_eq, hzip]
  apply Moment.eq_of_parts
  intro p
  apply DateToken.part_gather_written hw hpairs
  rintro g cs hmem rfl
  exact hparts g (List.of_mem_zip hmem).1

end DateFormat

namespace DateTime

variable {text format d : String} {clock : Option Int} {zone : Zone} {f : DateFormat}

/-- The parts that a text gives are not lost when they are written and read back. -/
theorem part_kept {pieces : List (List Char)}
    (hall : List.Forall₂ DateToken.Admits f.tokens pieces) (clock : Option Int) (zone : Zone)
    {g : DateField} (hg : .field g ∈ f.tokens) :
    (f.collect pieces).part g.part = (withClock (f.collect pieces) clock zone).kept.part g.part := by
  have hmicrosecond := (DateFormat.collect_timed hall).thousandths
  cases g with
  | millisecond =>
    have hthousandths : (f.collect pieces).microsecond =
        (f.collect pieces).microsecond / 1000 * 1000 := (Int.ediv_mul_cancel hmicrosecond).symm
    exact congrArg some hthousandths
  | zone =>
    rw [← DateFormat.map_fst_zip hall] at hg
    obtain ⟨s, hs⟩ := Option.ne_none_iff_exists'.mp (DateToken.gather_offset hg)
    rw [← DateFormat.collect_eq] at hs
    change (f.collect pieces).offset = some ((f.collect pieces).offset.getD (clock.getD _))
    rw [hs, Option.getD_some]
  | _ => rfl

/-- **Dates invert.** What is read in a format whose numbers without leading zeros end where no digit
can go on is written in that format, as a text that is read as the same under the same clock and in
the same zone, which are set by whole minutes. -/
theorem read_write_read (hf : DateFormat.ofString format = .ok f) (hdelimited : f.Delimited)
    (hclock : WholeMinutes clock zone) (h : read text format clock zone = .ok d) :
    ∃ t, write (.text d) format = .ok t ∧ read t format clock zone = .ok d := by
  rw [read_eq hf] at h
  cases hsplit : splitBySymbols? f.symbols text with
  | none =>
    rw [hsplit] at h
    cases h
  | some pieces =>
    rw [hsplit] at h
    obtain ⟨hyear, hday, hoffset, rfl⟩ := settle_eq_ok_iff.mp h
    obtain ⟨hall, -⟩ := DateFormat.admits_of_split hsplit
    have hvalid := valid_withClock hsplit clock zone hyear hday
    have hwhole := dvd_withClock hsplit hclock
    have hw : (withClock (f.collect pieces) clock zone).kept.Told :=
      Moment.told_kept hvalid rfl hoffset hwhole
    refine ⟨f.write (withClock (f.collect pieces) clock zone).kept, ?_, ?_⟩
    · unfold write
      simp only [Moment.read_kept hvalid rfl hoffset hwhole, hf]
      rfl
    · rw [read_eq hf, DateFormat.split_write hdelimited hw]
      have hsame := DateFormat.collect_written hall hw fun g hg => part_kept hall clock zone hg
      simp only [hsame]
      exact settle_eq_ok_iff.mpr ⟨hyear, hday, hoffset, rfl⟩

/-- A format with numbers without leading zeros, a year of two digits and an offset. -/
def letterhead : DateFormat where
  tokens := [.literal "on ".toList, .field .day, .literal " ".toList, .field .monthShort,
    .literal " ".toList, .field .shortYear, .literal ", ".toList, .field .hour, .literal ":".toList,
    .field .minute, .field .zone]

theorem read_write_read_letterhead :
    DateFormat.ofString "[on] D MMM YY, H:mmZ" = .ok letterhead ∧ letterhead.Delimited ∧
    read "on 5 May 70, 9:07-0530" "[on] D MMM YY, H:mmZ" none = .ok "1970-05-05T09:07:00.000-05:30" ∧
    ∃ t, write (.text "1970-05-05T09:07:00.000-05:30") "[on] D MMM YY, H:mmZ" = .ok t ∧
      read t "[on] D MMM YY, H:mmZ" none = .ok "1970-05-05T09:07:00.000-05:30" := by
  have hformat : DateFormat.ofString "[on] D MMM YY, H:mmZ" = .ok letterhead := by rfl
  have hdelimited : letterhead.Delimited := by
    unfold DateFormat.Delimited
    decide
  have hread : read "on 5 May 70, 9:07-0530" "[on] D MMM YY, H:mmZ" none =
      .ok "1970-05-05T09:07:00.000-05:30" := by
    have hsplit : splitBySymbols? letterhead.symbols "on 5 May 70, 9:07-0530" = some
        (["on ", "5", " ", "May", " ", "70", ", ", "9", ":", "07", "-0530"].map String.toList) := by
      decide +kernel
    rw [read_eq hformat, hsplit]
    exact settle_eq_ok_iff.mpr (by decide +kernel)
  exact ⟨hformat, hdelimited, hread, read_write_read hformat hdelimited ⟨nofun, fun _ _ => Int.dvd_zero _⟩ hread⟩

end DateTime

end Covenant
