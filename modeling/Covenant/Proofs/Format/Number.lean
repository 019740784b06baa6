import Covenant.Proofs.Pattern.Assembly
import Covenant.Proofs.Source.Slashes

/-!
The numbers of amount formats.

* `AmountFormat.separated`: the separators of a format that is read are no digits, and differ.
* `AmountFormat.ofString_regex`: the regular expression of the number, as it is read.
* `AmountFormat.exists_of_admits`: what the numbers of a format look like.
* `AmountFormat.toDouble_eq_none_iff`: a number of the format is not read as a double iff it is
  negative and its decimal separator is the sign.
-/

namespace Covenant.AmountFormat

open Pattern Slashed

open Covenant.Symbol (digitPattern)

/-! ### The pattern of the number -/

/-- A group of three digits after a separator of thousands. -/
def groupPattern (c : Char) : Pattern :=
  .seq (.char c) (.rep digitPattern 3 (some 0) false)

def wholePattern (f : AmountFormat) : Pattern :=
  match f.thousands with
  | some c =>
    .alt (.seq (.rep digitPattern 1 (some 2) false) (.rep (groupPattern c) 1 none false))
      (.rep digitPattern 1 none false)
  | none => .rep digitPattern 1 none false

def fractionPattern (f : AmountFormat) : Pattern :=
  match f.decimal with
  | some c => .seq (.char c) (.rep digitPattern f.places (some 0) false)
  | none => .empty

/-- The number, with the sign that may be missing. -/
def numberPattern (f : AmountFormat) : Pattern :=
  let rest := if f.fractionPattern = .empty then f.wholePattern
    else .seq f.wholePattern f.fractionPattern
  .seq (.rep (.char '-') 0 (some 1) false) rest

section

variable (f : AmountFormat) (write : Char → List Char)

/-- The characters of the regular expression for the whole part, with what follows them, where
separators are written by `write`. -/
def wholeChars (rest : List Char) : List Char :=
  match f.thousands with
  | some c =>
    '(' :: '?' :: ':' :: ("[0-9]".toList ++ '\x7b' :: '1' :: ',' :: '3' :: '\x7d' :: '(' :: '?' ::
      ':' :: (write c ++ ("[0-9]".toList ++ '\x7b' :: '3' :: '\x7d' :: ')' :: '+' :: '|' ::
        ("[0-9]".toList ++ '+' :: ')' :: rest))))
  | none => "[0-9]".toList ++ '+' :: rest

/-- The characters of the regular expression for the fraction. -/
def fractionChars : List Char :=
  match f.decimal with
  | some c => write c ++ ("[0-9]".toList ++ '\x7b' :: ((toString f.places).toList ++ ['\x7d']))
  | none => []

/-- The characters of the regular expression for the number. -/
def numberChars : List Char :=
  '-' :: '?' :: f.wholeChars write (f.fractionChars write)

end

theorem toList_regex (f : AmountFormat) : f.regex.toList = f.numberChars escapeRegex := by
  unfold regex numberChars wholeChars fractionChars
  cases f.thousands <;> cases f.decimal <;> simp

variable {fuel : Nat} {rest : List Char}

/-! ### Reading the regular expression -/

section

variable {write : Char → List Char} (hwrite : Spelling write)

include hwrite

/-- A separator and as many digits as there are places. -/
theorem readSequence_fraction (c : Char) (n : Nat) : readSequence (fuel + 3)
    (write c ++ ("[0-9]".toList ++ '\x7b' :: ((toString n).toList ++ ['\x7d']))) =
      some (.seq (.char c) (.rep digitPattern n (some 0) false), []) := by
  rw [hwrite.readSequence c (repeated_none rfl), readSequence_digit (repeated_count n rfl),
    readSequence_nil]
  rfl

omit hwrite in
theorem repeated_three (h : rounds? rest = none) :
    repeated? digitPattern ('\x7b' :: '3' :: '\x7d' :: rest) =
      some (.rep digitPattern 3 (some 0) false, rest) := by
  have hrounds : rounds? ('\x7b' :: '3' :: '\x7d' :: rest) = some ((3, some 3), rest) := rfl
  exact repeated_some hrounds (by simp) h

omit hwrite in
theorem repeated_oneToThree (h : rounds? rest = none) :
    repeated? digitPattern ('\x7b' :: '1' :: ',' :: '3' :: '\x7d' :: rest) =
      some (.rep digitPattern 1 (some 2) false, rest) := by
  have hrounds : rounds? ('\x7b' :: '1' :: ',' :: '3' :: '\x7d' :: rest) =
    some ((1, some 3), rest) := rfl
  exact repeated_some hrounds (by simp) h

/-- A separator of thousands with three digits, in brackets. -/
theorem readItem_group (c : Char) : readItem (fuel + 5) ('(' :: '?' :: ':' :: (write c ++
    ("[0-9]".toList ++ '\x7b' :: '3' :: '\x7d' :: ')' :: rest))) = some (groupPattern c, rest) := by
  refine readItem_brackets (readChoice_last (by simp) ?_)
  rw [hwrite.readSequence c (repeated_none rfl), readSequence_digit (repeated_three rfl),
    readSequence_stop (by rfl)]
  rfl

/-- The whole part with separators of thousands, in brackets. -/
theorem readItem_whole (c : Char) : readItem (fuel + 9) ('(' :: '?' :: ':' :: ("[0-9]".toList ++
    '\x7b' :: '1' :: ',' :: '3' :: '\x7d' :: '(' :: '?' :: ':' :: (write c ++
      ("[0-9]".toList ++ '\x7b' :: '3' :: '\x7d' :: ')' :: '+' :: '|' ::
        ("[0-9]".toList ++ '+' :: ')' :: rest))))) =
      some (.alt (.seq (.rep digitPattern 1 (some 2) false) (.rep (groupPattern c) 1 none false))
        (.rep digitPattern 1 none false), rest) := by
  have hplain : readChoice (fuel + 7) ("[0-9]".toList ++ '+' :: ')' :: rest) =
      some (.rep digitPattern 1 none false, ')' :: rest) := by
    refine readChoice_last (by simp) ?_
    rw [readSequence_digit (repeated_plus rfl), readSequence_stop (by rfl)]
    rfl
  refine readItem_brackets (readChoice_bar ?_ hplain)
  rw [readSequence_digit (repeated_oneToThree rfl),
    readSequence_item (by rfl) (readItem_group hwrite c) (repeated_plus rfl), readSequence_stop (by rfl)]
  rfl

variable (f : AmountFormat)

/-- The whole part and the fraction, after which nothing follows. -/
theorem readSequence_unsigned :
    readSequence (fuel + 11) (f.wholeChars write (f.fractionChars write)) = some (join f.wholePattern (f.fractionPattern, [])) := by
  have hfraction : ∀ fuel, readSequence (fuel + 3) (f.fractionChars write) =
      some (f.fractionPattern, []) := by
    intro fuel
    unfold fractionChars fractionPattern
    cases f.decimal with
    | none => exact readSequence_nil
    | some c => exact readSequence_fraction hwrite c f.places
  have hmark : rounds? (f.fractionChars write) = none := by
    unfold fractionChars
    cases f.decimal with
    | none => rfl
    | some c =>
      obtain ⟨_, _, _, _, hmark⟩ := hwrite.starts c
      exact hmark _
  unfold wholeChars wholePattern
  cases f.thousands with
  | none =>
    simp only
    rw [readSequence_digit (repeated_plus hmark), hfraction]
    rfl
  | some c =>
    simp only
    rw [readSequence_item (by rfl) (readItem_whole hwrite c) (repeated_none hmark), hfraction]
    rfl

/-- **The regular expression of the number**, as it is read. -/
theorem ofChars_numberChars : Pattern.ofChars? (f.numberChars write) = some f.numberPattern := by
  have hlength : 13 ≤ 3 * (f.numberChars write).length + 3 := by
    unfold numberChars wholeChars
    cases f.thousands <;> simp <;> omega
  obtain ⟨m, hm⟩ := Nat.exists_eq_add_of_le' hlength
  have hminus : ∀ rest, readItem (m + 11) ('-' :: rest) = some (.char '-', rest) := fun _ => rfl
  have hmark : rounds? (f.wholeChars write (f.fractionChars write)) = none := by
    unfold wholeChars
    cases f.thousands <;> rfl
  have hread : readSequence (m + 12) (f.numberChars write) = some (f.numberPattern, []) := by
    rw [numberChars, readSequence_item (by rfl) (hminus _) (repeated_optional hmark),
      readSequence_unsigned hwrite, Option.map_some, Option.some.injEq]
    have hne : (join f.wholePattern (f.fractionPattern, [])).1 ≠ .empty := by
      unfold join wholePattern
      cases f.thousands <;> split <;> simp
    rw [join, if_neg hne]
    rfl
  rw [Pattern.ofChars?, hm, readChoice_last (by simp) hread]

end

variable (f : AmountFormat)

theorem ofString_regex : Pattern.ofString? f.regex = some f.numberPattern := by
  rw [Pattern.ofString?, toList_regex, ofChars_numberChars spelling_escapeRegex]

/-! ### The regular expression between slashes -/

def slashed (c : Char) : List Char :=
  if c = '/' then ['\\', '/'] else escapeRegex c

theorem spelling_slashed : Spelling slashed := by
  constructor
  · intro c fuel rest
    unfold slashed
    split
    · rename_i h
      subst h
      exact readItem_escaped (by decide)
    · exact readItem_escape c
  · intro c
    unfold slashed
    split
    · exact ⟨'\\', ['/'], rfl, rfl, fun _ => rfl⟩
    · exact escapeRegex_starts c

theorem respells_slashed {c : Char} (hfeed : c ≠ '\n') (hreturn : c ≠ '\r') :
    Respells (escapeRegex c) (slashed c) := by
  have hspecial : (special.all fun c => c == '\n' || c == '\r' ||
      (c != '/' && decide (c ∉ "xuUnrtf\"\n\r".toList))) = true := by decide
  unfold slashed escapeRegex
  split
  · rename_i h
    have hc := List.all_eq_true.mp hspecial c (List.contains_iff_mem.mp h)
    rw [beq_false_of_ne hfeed, beq_false_of_ne hreturn, Bool.false_or, Bool.false_or,
      Bool.and_eq_true, bne_iff_ne, decide_eq_true_eq] at hc
    rw [if_neg hc.1]
    exact respells_pair hc.2
  · rename_i h
    split
    · rename_i hslash
      exact hslash ▸ respells_slash
    · rename_i hslash
      refine respells_plain ?_ hslash
      rintro rfl
      exact h (by decide)

/-- What becomes of a regular expression between slashes, if it can stand there. -/
def Becomes (cs cs' : List Char) : Prop :=
  respell? cs = none ∨ respell? cs = some cs'

variable {cs cs' : List Char}

theorem Becomes.append {front front' : List Char} (h : Becomes cs cs')
    (hfront : Respells front front') : Becomes (front ++ cs) (front' ++ cs') := by
  unfold Becomes
  rw [hfront cs]
  rcases h with h | h
  · exact .inl (by rw [h]; rfl)
  · exact .inr (by rw [h]; rfl)

theorem Becomes.chars (h : Becomes cs cs') (front : List Char)
    (hfront : (front.all fun c => c != '\\' && c != '/') = true) :
    Becomes (front ++ cs) (front ++ cs') :=
  h.append (respells_chars hfront)

theorem Becomes.separator (h : Becomes cs cs') (c : Char) :
    Becomes (escapeRegex c ++ cs) (slashed c ++ cs') := by
  by_cases hbreak : c = '\n' ∨ c = '\r'
  · refine .inl ?_
    rw [show escapeRegex c = ['\\', c] by rcases hbreak with rfl | rfl <;> rfl]
    exact respell_break hbreak cs
  · rw [not_or] at hbreak
    exact h.append (respells_slashed hbreak.1 hbreak.2)

/-- **Between slashes** the regular expression of a number is the same but for slashes, unless a
separator is a line break. -/
theorem becomes_numberChars : Becomes (f.numberChars escapeRegex) (f.numberChars slashed) := by
  have hplaces : ((toString f.places).toList.all fun c => c != '\\' && c != '/') = true := by
    rw [List.all_eq_true]
    intro c hc
    rw [Nat.toString_eq_ofList_toDigits, String.toList_ofList] at hc
    have hdigit := Text.isDigit_of_mem_toDigits hc
    rw [Bool.and_eq_true, bne_iff_ne, bne_iff_ne]
    refine ⟨?_, ?_⟩ <;> rintro rfl <;> cases hdigit
  have hnil : Becomes [] [] := .inr rfl
  have hfraction : Becomes (f.fractionChars escapeRegex) (f.fractionChars slashed) := by
    unfold fractionChars
    cases f.decimal with
    | none => exact hnil
    | some c =>
      have hwidth := ((hnil.chars ['\x7d'] rfl).chars _ hplaces).chars "[0-9]\x7b".toList rfl
      rw [List.append_nil] at hwidth
      exact hwidth.separator c
  have hwhole : Becomes (f.wholeChars escapeRegex (f.fractionChars escapeRegex))
      (f.wholeChars slashed (f.fractionChars slashed)) := by
    unfold wholeChars
    cases f.thousands with
    | none => exact hfraction.chars "[0-9]+".toList rfl
    | some c =>
      have hgroup := (hfraction.chars "[0-9]\x7b3\x7d)+|[0-9]+)".toList rfl).separator c
      exact hgroup.chars "(?:[0-9]\x7b1,3\x7d(?:".toList rfl
  exact hwhole.chars ['-', '?'] rfl

/-- **The pattern of the number** is what its regular expression is read as, between slashes too. -/
theorem toPattern_number : f.number.toPattern = f.numberPattern := by
  refine Symbol.toPattern_pattern ?_
  rw [Symbol.regex, Symbol.pattern, toList_regex]
  rcases becomes_numberChars f with h | h
  · rw [h, Option.getD_none, ofChars_numberChars spelling_escapeRegex]
  · rw [h, Option.getD_some, ofChars_numberChars spelling_slashed]

/-! ### The texts of numbers -/

/-- Digits, in groups if the format has a separator of thousands. -/
def IsWhole (cs : List Char) : Prop :=
  match f.thousands with
  | some c => (∃ d ∈ cs, d.isDigit = true) ∧ ∀ d ∈ cs, d.isDigit = true ∨ d = c
  | none => Decimal.IsDigits cs

/-- A fraction after the decimal separator of the format, if it has one. -/
def IsPlaces (cs : List Char) : Prop :=
  match f.decimal with
  | some c => ∃ ds, Decimal.IsDigits ds ∧ cs = c :: ds
  | none => cs = []

variable {f} {cs : List Char}

theorem admits_group {c : Char} (h : (groupPattern c).Admits cs) :
    ∀ d ∈ cs, d.isDigit = true ∨ d = c := by
  obtain ⟨mark, ds, rfl, hmark, hds⟩ := admits_seq_iff.mp h
  obtain rfl := admits_char_iff.mp hmark
  exact List.forall_mem_cons.mpr ⟨.inr rfl, fun d hd => .inl ((digits_of_admits hds).1 d hd)⟩

theorem isWhole_of_admits (h : f.wholePattern.Admits cs) : f.IsWhole cs := by
  unfold wholePattern at h
  unfold IsWhole
  have hplain : ∀ {more cs}, (Pattern.rep digitPattern 1 more false).Admits cs →
      Decimal.IsDigits cs := fun h => isDigits_of_admits (by decide) h
  cases hthousands : f.thousands with
  | none =>
    rw [hthousands] at h
    exact hplain h
  | some c =>
    rw [hthousands] at h
    rcases admits_alt_iff.mp h with h | h
    · obtain ⟨first, rest, rfl, hfirst, hrest⟩ := admits_seq_iff.mp h
      obtain ⟨pieces, rfl, hpieces, -⟩ := exists_of_admits_rep hrest
      have hdigits := hplain hfirst
      obtain ⟨d, hd⟩ := List.exists_mem_of_ne_nil first hdigits.1
      refine ⟨⟨d, List.mem_append_left _ hd, hdigits.2 d hd⟩, List.forall_mem_append.mpr ⟨?_, ?_⟩⟩
      · exact fun d hd => .inl (hdigits.2 d hd)
      · intro d hd
        obtain ⟨piece, hpiece, hd⟩ := List.mem_flatten.mp hd
        exact admits_group (hpieces piece hpiece) d hd
    · have hdigits := hplain h
      obtain ⟨d, hd⟩ := List.exists_mem_of_ne_nil cs hdigits.1
      exact ⟨⟨d, hd, hdigits.2 d hd⟩, fun d hd => .inl (hdigits.2 d hd)⟩

theorem isPlaces_of_admits (hplaces : ∀ c ∈ f.decimal, 0 < f.places)
    (h : f.fractionPattern.Admits cs) : f.IsPlaces cs := by
  unfold fractionPattern at h
  unfold IsPlaces
  cases hdecimal : f.decimal with
  | none =>
    rw [hdecimal] at h
    exact admits_empty_iff.mp h
  | some c =>
    rw [hdecimal] at h
    obtain ⟨point, ds, rfl, hpoint, hds⟩ := admits_seq_iff.mp h
    obtain rfl := admits_char_iff.mp hpoint
    exact ⟨ds, isDigits_of_admits (hplaces c hdecimal) hds, rfl⟩

/-- **What the numbers of a format look like.** -/
theorem exists_of_admits (hplaces : ∀ c ∈ f.decimal, 0 < f.places)
    (h : f.number.toPattern.Admits cs) : ∃ sign whole fraction,
      (sign = [] ∨ sign = ['-']) ∧ f.IsWhole whole ∧ f.IsPlaces fraction ∧
        cs = sign ++ (whole ++ fraction) := by
  rw [toPattern_number] at h
  obtain ⟨sign, _, rfl, hsign, h⟩ := admits_seq_iff.mp h
  obtain ⟨whole, fraction, rfl, hwhole, hfraction⟩ := admits_join_iff.mp h
  refine ⟨sign, whole, fraction, ?_, isWhole_of_admits hwhole,
    isPlaces_of_admits hplaces hfraction, rfl⟩
  exact (admits_optional hsign).imp_right admits_char_iff.mp

/-! ### Numbers as numerals -/

/-- Separators as they should be: no digits, and different ones. -/
structure Separated (f : AmountFormat) : Prop where
  thousands : ∀ c ∈ f.thousands, c.isDigit = false
  decimal : ∀ c ∈ f.decimal, c.isDigit = false
  distinct : ∀ c ∈ f.decimal, f.thousands ≠ some c
  places : ∀ c ∈ f.decimal, 0 < f.places
  whole : f.decimal = none → f.places = 0

/-- What a format has after its whole part. -/
theorem tail_eq_some {before cs : List Char} {thousands : Option Char} {f : AmountFormat}
    (h : tail? before thousands cs = some f) :
    f.thousands = thousands ∧ (∀ c ∈ f.decimal, c.isDigit = false ∧ 0 < f.places) ∧
      (f.decimal = none → f.places = 0) := by
  unfold tail? at h
  have hplain : ∀ {f : AmountFormat}, (if cs.contains '0' then none
      else some (⟨before, cs, thousands, none, 0⟩ : AmountFormat)) = some f →
      f.thousands = thousands ∧ (∀ c ∈ f.decimal, c.isDigit = false ∧ 0 < f.places) ∧
        (f.decimal = none → f.places = 0) := by
    intro f h
    split at h
    · cases h
    · cases h
      exact ⟨rfl, by simp, fun _ => rfl⟩
  simp only at h
  split at h
  · split at h
    · exact hplain h
    · rename_i hdigit
      split at h
      · cases h
      · cases h
        refine ⟨rfl, fun d hd => ?_, nofun⟩
        cases hd
        exact ⟨by simpa using hdigit, by simp⟩
  · exact hplain h

/-- **The separators of a format that is read are no digits, and differ.** -/
theorem separated {format : String} {f : AmountFormat} (h : ofString format = .ok f) :
    f.Separated := by
  have hread : ofChars? format.toList = some f ∧
      (f.decimal.isSome && f.decimal == f.thousands) = false := by
    unfold ofString at h
    split at h
    · cases h
    · rename_i f' hf'
      split at h
      · cases h
      · rename_i hdistinct
        cases h
        exact ⟨hf', by simpa using hdistinct⟩
  obtain ⟨hread, hdistinct⟩ := hread
  have htail : ∃ before thousands cs, tail? before thousands cs = some f ∧
      ∀ c ∈ thousands, Char.isDigit c = false := by
    unfold ofChars? at hread
    simp only at hread
    split at hread
    · split at hread
      · rename_i f' hgrouped
        cases hread
        split at hgrouped
        · split at hgrouped
          · cases hgrouped
          · rename_i hdigit
            exact ⟨_, _, _, hgrouped, by simpa using hdigit⟩
        · cases hgrouped
      · exact ⟨_, _, _, hread, by simp⟩
    · cases hread
  obtain ⟨before, thousands, cs, htail, hdigit⟩ := htail
  obtain ⟨hthousands, hdecimal, hwhole⟩ := tail_eq_some htail
  refine ⟨fun c hc => hdigit c (hthousands ▸ hc), fun c hc => (hdecimal c hc).1, ?_,
    fun c hc => (hdecimal c hc).2, hwhole⟩
  intro c hc hsame
  rw [show f.decimal = some c from hc, hsame] at hdistinct
  simp at hdistinct

/-- A character of a number as one of the plain numeral. -/
def plain? (f : AmountFormat) (d : Char) : Option Char :=
  if f.thousands = some d then none else if f.decimal = some d then some '.' else some d

theorem numeral_eq (f : AmountFormat) (cs : List Char) : f.numeral cs = cs.filterMap f.plain? := by
  unfold numeral plain?
  cases f.thousands with
  | none =>
    cases f.decimal with
    | none => simp
    | some c =>
      dsimp only
      rw [← List.filterMap_eq_map]
      exact List.filterMap_congr fun d _ => by grind
  | some t =>
    cases f.decimal with
    | none =>
      dsimp only
      rw [← List.filterMap_eq_filter]
      exact List.filterMap_congr fun d _ => by grind
    | some c =>
      dsimp only
      rw [← List.filterMap_eq_map, List.filterMap_filter]
      exact List.filterMap_congr fun d _ => by grind

variable (hf : f.Separated)

include hf

theorem plain_digit {d : Char} (hd : d.isDigit = true) : f.plain? d = some d := by
  have hthousands : f.thousands ≠ some d := by
    intro h
    cases (hf.thousands d h).symm.trans hd
  have hdecimal : f.decimal ≠ some d := by
    intro h
    cases (hf.decimal d h).symm.trans hd
  rw [plain?, if_neg hthousands, if_neg hdecimal]

theorem numeral_digits {ds : List Char} (h : Decimal.IsDigits ds) : f.numeral ds = ds := by
  rw [numeral_eq, List.filterMap_congr fun d hd => plain_digit hf (h.2 d hd), List.filterMap_some]

theorem isDigits_numeral (h : f.IsWhole cs) : Decimal.IsDigits (f.numeral cs) := by
  unfold IsWhole at h
  cases hthousands : f.thousands with
  | none =>
    rw [hthousands] at h
    rwa [numeral_digits hf h]
  | some c =>
    rw [hthousands] at h
    obtain ⟨⟨d, hd, hdigit⟩, hall⟩ := h
    rw [numeral_eq]
    refine ⟨List.ne_nil_of_mem (List.mem_filterMap.mpr ⟨d, hd, plain_digit hf hdigit⟩), ?_⟩
    intro x hx
    obtain ⟨d, hd, hx⟩ := List.mem_filterMap.mp hx
    rcases hall d hd with hdigit | rfl
    · rw [plain_digit hf hdigit, Option.some.injEq] at hx
      exact hx ▸ hdigit
    · rw [plain?, if_pos hthousands] at hx
      cases hx

theorem plain_decimal {c : Char} (h : f.decimal = some c) : f.plain? c = some '.' := by
  rw [plain?, if_neg (hf.distinct c h), if_pos h]

/-- The fraction of a numeral is there iff the format has a decimal separator. -/
theorem numeral_fraction (h : f.IsPlaces cs) : (f.decimal = none ∧ f.numeral cs = []) ∨
    ∃ ds, Decimal.IsDigits ds ∧ f.numeral cs = '.' :: ds := by
  unfold IsPlaces at h
  cases hdecimal : f.decimal with
  | none =>
    rw [hdecimal] at h
    obtain rfl : cs = [] := h
    exact .inl ⟨rfl, numeral_eq f []⟩
  | some c =>
    rw [hdecimal] at h
    obtain ⟨ds, hds, rfl⟩ := h
    refine .inr ⟨ds, hds, ?_⟩
    rw [numeral_eq, List.filterMap_cons, plain_decimal hf hdecimal, ← numeral_eq,
      numeral_digits hf hds]

omit hf in
theorem numeral_append {xs ys : List Char} : f.numeral (xs ++ ys) = f.numeral xs ++ f.numeral ys := by
  rw [numeral_eq, numeral_eq, numeral_eq, List.filterMap_append]

/-- A number of the format with a plain sign, or without one, is read. -/
theorem exists_toDouble {sign whole fraction : List Char} (hsign : Decimal.IsSign (f.numeral sign))
    (hwhole : f.IsWhole whole) (hfraction : f.IsPlaces fraction) :
    ∃ x, f.toDouble? (sign ++ (whole ++ fraction)) = some x := by
  refine Decimal.exists_of_isNumeral ⟨f.numeral sign, f.numeral whole, f.numeral fraction, [], hsign,
    isDigits_numeral hf hwhole, ?_, .inl rfl, ?_⟩
  · rcases numeral_fraction hf hfraction with ⟨-, hempty⟩ | ⟨ds, hds, hpoint⟩
    · exact .inl hempty
    · exact .inr ⟨ds, hds, hpoint⟩
  · rw [numeral_append, numeral_append, List.append_nil]

/-- No sign is among the digits when it separates them from the fraction. -/
theorem minus_notMem (h : f.IsWhole cs) (hdecimal : f.decimal = some '-') : cs ≠ [] ∧ '-' ∉ cs := by
  have hthousands := hf.distinct '-' hdecimal
  unfold IsWhole at h
  cases hwhole : f.thousands with
  | none =>
    rw [hwhole] at h
    exact ⟨h.1, fun hmem => by cases h.2 '-' hmem⟩
  | some c =>
    rw [hwhole] at h
    obtain ⟨⟨d, hd, -⟩, hall⟩ := h
    refine ⟨List.ne_nil_of_mem hd, fun hmem => ?_⟩
    rcases hall '-' hmem with hdigit | rfl
    · cases hdigit
    · exact hthousands hwhole

omit hf in
theorem numeral_singleton (d : Char) : f.numeral [d] = (f.plain? d).toList := by
  rw [numeral_eq]
  cases hd : f.plain? d <;> simp [hd]

/-- **A number of the format is not read as a double** iff it is negative and its decimal
separator is the sign. -/
theorem toDouble_eq_none_iff (h : f.number.toPattern.Admits cs) :
    f.toDouble? cs = none ↔ f.decimal = some '-' ∧ cs.head? = some '-' := by
  obtain ⟨sign, whole, fraction, hsign, hwhole, hfraction, rfl⟩ := exists_of_admits hf.places h
  rcases hsign with rfl | rfl
  · obtain ⟨x, hx⟩ := exists_toDouble hf (.inl (numeral_eq f [])) hwhole hfraction
    refine iff_of_false (fun hnone => by cases hx.symm.trans hnone) ?_
    rintro ⟨hdecimal, hhead⟩
    obtain ⟨hne, hminus⟩ := minus_notMem hf hwhole hdecimal
    rw [List.nil_append, List.head?_append_of_ne_nil _ hne] at hhead
    exact hminus (List.mem_of_mem_head? hhead)
  · by_cases hdecimal : f.decimal = some '-'
    · refine iff_of_true ?_ ⟨hdecimal, rfl⟩
      rcases numeral_fraction hf hfraction with ⟨hnone, -⟩ | ⟨ds, hds, hpoint⟩
      · cases hnone.symm.trans hdecimal
      · rw [toDouble?, numeral_append, numeral_append, hpoint, numeral_singleton,
          plain_decimal hf hdecimal]
        exact Decimal.readFloat_twoPoints (isDigits_numeral hf hwhole) hds
    · have hsign : Decimal.IsSign (f.numeral ['-']) := by
        rw [numeral_singleton, plain?, if_neg hdecimal]
        split
        · exact .inl rfl
        · exact .inr (.inr rfl)
      obtain ⟨x, hx⟩ := exists_toDouble hf hsign hwhole hfraction
      exact iff_of_false (fun hnone => by cases hx.symm.trans hnone) fun h => hdecimal h.1

end Covenant.AmountFormat
