import Covenant.Proofs.Format.Readings
import Covenant.Proofs.Pattern.Cutting

/-!
Numbers in amount formats, written and read.

* `Decimal.IsPlaced`: numerals with so many places, as amounts are written.
* `AmountFormat.groups_spec`: the groups of a whole part.
* `AmountFormat.admits_writeNumeral`: a numeral in a format is a number of the format.
* `AmountFormat.numeral_writeNumeral`: it is the plain numeral again once its separators are gone.
* `AmountFormat.returns_numeral`: so it is with its sign, unless the sign is a separator.
-/

namespace Covenant

namespace Decimal

/-- **A numeral with so many places**, and without a point if there are none. -/
def IsPlaced (places : Nat) (cs : List Char) : Prop :=
  ∃ whole fraction, IsDigits whole ∧ (∀ c ∈ fraction, c.isDigit = true) ∧ fraction.length = places ∧
    cs = whole ++ (if places = 0 then [] else '.' :: fraction)

/-- A number of units of the last place, written with its point. -/
theorem isPlaced_placed (places n : Nat) : IsPlaced places (placed places n).toList := by
  unfold placed
  split
  · rename_i hzero
    have hdigits : IsDigits (toString n).toList := by
      rw [show (toString n).toList = Nat.toDigits 10 n from Nat.toList_repr]
      exact ⟨Nat.toDigits_ne_nil, fun c hc => Text.isDigit_of_mem_toDigits hc⟩
    exact ⟨_, [], hdigits, nofun, hzero.symm, by rw [if_pos hzero, List.append_nil]⟩
  · rename_i hplaces
    have hpos : 0 < places := Nat.pos_of_ne_zero hplaces
    have hlt : n % Nat.pow 10 places < 10 ^ places := Nat.mod_lt _ (Nat.pow_pos (by decide))
    refine ⟨_, _, Text.isDigits_padded 1 (n / Nat.pow 10 places),
      (Text.isDigits_padded places (n % Nat.pow 10 places)).2, Text.length_padded hpos hlt, ?_⟩
    rw [if_neg hplaces, String.toList_append, String.toList_append, List.append_assoc]
    rfl

section

variable {places : Nat} {n sign : List Char}

/-- A numeral with places is one of a double, with a sign or without. -/
theorem IsPlaced.isNumeral (h : IsPlaced places n) (hsign : IsSign sign) : IsNumeral (sign ++ n) := by
  obtain ⟨whole, fraction, hwhole, hfraction, hplaces, rfl⟩ := h
  refine ⟨sign, whole, _, [], hsign, hwhole, ?_, .inl rfl, by rw [List.append_nil]⟩
  split
  · exact .inl rfl
  · rename_i hne
    exact .inr ⟨fraction, ⟨List.ne_nil_of_length_pos (by omega), hfraction⟩, rfl⟩

/-- With another point in front it is not. -/
theorem IsPlaced.readFloat_point (h : IsPlaced places n) (hplaces : 0 < places) :
    readFloat? (String.ofList ('.' :: n)) = none := by
  obtain ⟨whole, fraction, hwhole, hfraction, rfl, rfl⟩ := h
  rw [if_neg (Nat.ne_of_gt hplaces)]
  exact readFloat_twoPoints hwhole ⟨List.ne_nil_of_length_pos hplaces, hfraction⟩

end

def signed (negative : Bool) (cs : List Char) : List Char :=
  (if negative then ['-'] else []) ++ cs

@[simp]
theorem signed_false (cs : List Char) : signed false cs = cs := rfl

@[simp]
theorem signed_true (cs : List Char) : signed true cs = '-' :: cs := rfl

end Decimal

namespace AmountFormat

open Decimal (IsDigits IsPlaced signed signed_false signed_true)

open Pattern (admits_digits_iff)

open Covenant.Symbol (digitPattern)

/-! ### Groups -/

/-- **The groups of digits**: three in each but the first, which has no more. -/
theorem groups_spec {fuel : Nat} {cs : List Char} (hne : cs ≠ []) (hfuel : cs.length ≤ fuel + 3) :
    ∃ first rest, groups fuel cs = first :: rest ∧ first ≠ [] ∧ first.length ≤ 3 ∧
      (∀ g ∈ rest, g.length = 3) ∧ first ++ rest.flatten = cs := by
  induction fuel generalizing cs with
  | zero => exact ⟨cs, [], rfl, hne, hfuel, nofun, List.append_nil cs⟩
  | succ fuel ih =>
    rw [groups]
    split
    · rename_i hshort
      exact ⟨cs, [], rfl, hne, hshort, nofun, List.append_nil cs⟩
    · rename_i hlong
      have hfront : cs.take (cs.length - 3) ≠ [] := by
        apply List.ne_nil_of_length_pos
        rw [List.length_take]
        omega
      obtain ⟨first, rest, hgroups, hfirst, hwidth, hrest, hflatten⟩ :=
        ih hfront (by rw [List.length_take]; omega)
      refine ⟨first, rest ++ [cs.drop (cs.length - 3)], by rw [hgroups, List.cons_append], hfirst,
        hwidth, ?_, ?_⟩
      · intro g hg
        rcases List.mem_append.mp hg with hg | hg
        · exact hrest g hg
        · rw [List.mem_singleton.mp hg, List.length_drop]
          omega
      · rw [List.flatten_append, List.flatten_singleton, ← List.append_assoc, hflatten,
          List.take_append_drop]

/-- Groups with a separator between them: it stands in front of each but the first. -/
theorem intercalate_eq (c : Char) (first : List Char) (rest : List (List Char)) :
    [c].intercalate (first :: rest) = first ++ (rest.map (c :: ·)).flatten := by
  induction rest generalizing first with
  | nil => simp
  | cons g rest ih =>
    rw [List.intercalate_cons_cons, ih, List.map_cons, List.flatten_cons, List.append_assoc]
    rfl

/-! ### Numbers of a format -/

variable {f : AmountFormat} {whole fraction n : List Char}

/-- The whole part of a numeral as the format writes it. -/
def writeWhole (f : AmountFormat) (whole : List Char) : List Char :=
  match f.thousands with
  | some c => [c].intercalate (groups whole.length whole)
  | none => whole

/-- The fraction of a numeral as the format writes it. -/
def writeFraction (f : AmountFormat) (fraction : List Char) : List Char :=
  match f.decimal with
  | some c => c :: fraction
  | none => []

theorem admits_writeWhole (h : IsDigits whole) : f.wholePattern.Admits (f.writeWhole whole) := by
  have hplain : (Pattern.rep digitPattern 1 none false).Admits whole :=
    admits_digits_iff.mpr ⟨h.2, List.length_pos_of_ne_nil h.1, nofun⟩
  unfold wholePattern writeWhole
  cases f.thousands with
  | none => exact hplain
  | some c =>
    obtain ⟨first, rest, hgroups, hfirst, hwidth, hrest, hflatten⟩ :=
      groups_spec h.1 (Nat.le_add_right whole.length 3)
    have hdigits : ∀ d ∈ first ++ rest.flatten, d.isDigit = true := hflatten ▸ h.2
    obtain ⟨hfirstDigits, hrestDigits⟩ := List.forall_mem_append.mp hdigits
    apply Pattern.admits_alt_iff.mpr
    simp only [hgroups, intercalate_eq]
    cases rest with
    | nil =>
      right
      rw [List.flatten_nil, List.append_nil] at hflatten
      rwa [List.map_nil, List.flatten_nil, List.append_nil, hflatten]
    | cons g rest =>
      left
      refine Pattern.admits_seq_iff.mpr ⟨first, _, rfl, ?_, ?_⟩
      · exact admits_digits_iff.mpr ⟨hfirstDigits, List.length_pos_of_ne_nil hfirst, fun m hm => by
          cases hm
          exact hwidth⟩
      · apply Pattern.admits_rep
        · intro piece hpiece
          obtain ⟨ds, hds, rfl⟩ := List.mem_map.mp hpiece
          refine ⟨Pattern.admits_seq_iff.mpr ⟨[c], ds, rfl, Pattern.admits_char_iff.mpr rfl, ?_⟩,
            List.cons_ne_nil _ _⟩
          refine admits_digits_iff.mpr ⟨fun d hd => ?_, Nat.le_of_eq (hrest ds hds).symm, fun m _ => ?_⟩
          · exact hrestDigits d (List.mem_flatten.mpr ⟨ds, hds, hd⟩)
          · rw [hrest ds hds]
            exact Nat.le_add_right _ _
        · rw [List.length_map, List.length_cons]
          omega
        · nofun

theorem admits_writeFraction (h : ∀ c ∈ fraction, c.isDigit = true)
    (hplaces : fraction.length = f.places) :
    f.fractionPattern.Admits (f.writeFraction fraction) := by
  unfold fractionPattern writeFraction
  cases f.decimal with
  | none => exact Pattern.admits_empty_iff.mpr rfl
  | some c =>
    refine Pattern.admits_seq_iff.mpr ⟨[c], fraction, rfl, Pattern.admits_char_iff.mpr rfl, ?_⟩
    exact admits_digits_iff.mpr ⟨h, Nat.le_of_eq hplaces.symm, fun m _ =>
      (Nat.le_of_eq hplaces).trans (Nat.le_add_right _ _)⟩

/-- A numeral is cut at its point. -/
theorem writeNumeral_parts (f : AmountFormat) (n : List Char) : f.writeNumeral n =
    f.writeWhole (n.takeWhile (· != '.')) ++ f.writeFraction ((n.dropWhile (· != '.')).drop 1) := by
  unfold writeNumeral writeWhole writeFraction
  cases f.decimal with
  | none => exact (List.append_nil _).symm
  | some c => rfl

/-- **A numeral is written by its whole part and its fraction.** -/
theorem writeNumeral_eq (hf : f.Separated) (hwhole : IsDigits whole) :
    f.writeNumeral (whole ++ (if f.places = 0 then [] else '.' :: fraction)) =
      f.writeWhole whole ++ f.writeFraction fraction := by
  have hplain : ∀ c ∈ whole, (c != '.') = true := fun c hc =>
    bne_iff_ne.mpr (hwhole.ne (by decide) c hc)
  rw [writeNumeral_parts, List.takeWhile_append_of_pos hplain, List.dropWhile_append_of_pos hplain]
  by_cases hzero : f.places = 0
  · have hnone : ∀ cs, f.writeFraction cs = [] := by
      intro cs
      unfold writeFraction
      cases hdecimal : f.decimal with
      | none => rfl
      | some c => exact absurd hzero (Nat.ne_of_gt (hf.places c hdecimal))
    simp only [if_pos hzero, hnone, List.takeWhile_nil, List.append_nil]
  · rw [if_neg hzero, List.takeWhile_cons_of_neg (by decide), List.dropWhile_cons_of_neg (by decide),
      List.append_nil, List.drop_succ_cons, List.drop_zero]

/-- **A numeral in a format is a number of the format**, with a sign or without. -/
theorem admits_writeNumeral (hf : f.Separated) (hn : IsPlaced f.places n) (negative : Bool) :
    f.number.toPattern.Admits (signed negative (f.writeNumeral n)) := by
  obtain ⟨whole, fraction, hwhole, hfraction, hplaces, rfl⟩ := hn
  rw [writeNumeral_eq hf hwhole, toPattern_number]
  have hminus : ¬ (Pattern.char '-').Admits [] := by decide
  have hsign : (Pattern.rep (.char '-') 0 (some 1) false).Admits (if negative then ['-'] else []) := by
    apply (Pattern.admits_optional_iff hminus).mpr
    cases negative with
    | false => exact .inl rfl
    | true => exact .inr (Pattern.admits_char_iff.mpr rfl)
  exact Pattern.admits_seq_iff.mpr ⟨_, _, rfl, hsign,
    Pattern.admits_join_iff.mpr ⟨_, _, rfl, admits_writeWhole hwhole,
      admits_writeFraction hfraction hplaces⟩⟩

/-! ### Plain numerals -/

theorem numeral_writeWhole (hf : f.Separated) (h : IsDigits whole) :
    f.numeral (f.writeWhole whole) = whole := by
  unfold writeWhole
  cases hthousands : f.thousands with
  | none => exact numeral_digits hf h
  | some c =>
    obtain ⟨first, rest, hgroups, hfirst, -, -, hflatten⟩ :=
      groups_spec h.1 (Nat.le_add_right whole.length 3)
    have hdigits : ∀ d ∈ first ++ rest.flatten, d.isDigit = true := hflatten ▸ h.2
    obtain ⟨hfirstDigits, hrestDigits⟩ := List.forall_mem_append.mp hdigits
    have hseparators : f.numeral (rest.map (c :: ·)).flatten = rest.flatten := by
      clear hgroups hflatten hdigits
      induction rest with
      | nil => exact numeral_eq f []
      | cons g rest ih =>
        obtain ⟨hg, hrest⟩ := List.forall_mem_append.mp
          (List.flatten_cons (l := g) ▸ hrestDigits)
        have hkept : f.numeral g = g := by
          rw [numeral_eq, List.filterMap_congr fun d hd => plain_digit hf (hg d hd),
            List.filterMap_some]
        rw [List.map_cons, List.flatten_cons, numeral_append, ih hrest, List.flatten_cons,
          numeral_eq, List.filterMap_cons, plain?, if_pos hthousands, ← numeral_eq, hkept]
    simp only [hgroups, intercalate_eq, numeral_append, hseparators,
      numeral_digits hf ⟨hfirst, hfirstDigits⟩, hflatten]

/-- **A numeral in a format is the plain numeral again** once its separators are gone. -/
theorem numeral_writeNumeral (hf : f.Separated) (hn : IsPlaced f.places n) :
    f.numeral (f.writeNumeral n) = n := by
  obtain ⟨whole, fraction, hwhole, hfraction, hplaces, rfl⟩ := hn
  rw [writeNumeral_eq hf hwhole, numeral_append, numeral_writeWhole hf hwhole, writeFraction]
  cases hdecimal : f.decimal with
  | none => rw [if_pos (hf.whole hdecimal), numeral_eq, List.filterMap_nil]
  | some c =>
    have hne : fraction ≠ [] := by
      rintro rfl
      exact absurd (hf.places c hdecimal) (by rw [← hplaces]; decide)
    have hzero : f.places ≠ 0 := Nat.pos_iff_ne_zero.mp (hf.places c hdecimal)
    rw [if_neg hzero, numeral_eq, List.filterMap_cons, plain_decimal hf hdecimal, ← numeral_eq,
      numeral_digits hf ⟨hne, hfraction⟩]

/-- The sign is neither of the separators, or there is none. -/
def KeepsSign (f : AmountFormat) (negative : Bool) : Prop :=
  negative = true → f.thousands ≠ some '-' ∧ f.decimal ≠ some '-'

instance (f : AmountFormat) (negative : Bool) : Decidable (f.KeepsSign negative) :=
  inferInstanceAs (Decidable (_ → _))

/-- **What comes back of a numeral with its sign**: itself, unless the sign is a separator. A
separator of thousands is gone, and with a decimal separator there is a point too many. -/
inductive Returns (f : AmountFormat) (negative : Bool) (n : List Char) : List Char → Prop where
  | kept : f.KeepsSign negative →
      (∃ x, Decimal.readFloat? (String.ofList (signed negative n)) = some x) →
      Returns f negative n (signed negative n)
  | dropped : negative = true → f.thousands = some '-' →
      (∃ x, Decimal.readFloat? (String.ofList n) = some x) → Returns f negative n n
  | pointed : negative = true → f.decimal = some '-' →
      Decimal.readFloat? (String.ofList ('.' :: n)) = none → Returns f negative n ('.' :: n)

/-- **The same numeral comes back** iff its sign is no separator; then it is read as a double. -/
theorem Returns.eq_signed_iff {negative : Bool} {plain : List Char} (h : f.Returns negative n plain) :
    (plain = signed negative n ∧ ∃ x, Decimal.readFloat? (String.ofList plain) = some x) ↔
      f.KeepsSign negative := by
  cases h with
  | kept hkeeps hx => exact iff_of_true ⟨rfl, hx⟩ hkeeps
  | dropped hnegative hthousands _ =>
    refine iff_of_false (fun h => ?_) fun h => (h hnegative).1 hthousands
    have hlength := congrArg List.length h.1
    rw [hnegative, signed_true, List.length_cons] at hlength
    omega
  | pointed hnegative hdecimal _ =>
    refine iff_of_false (fun h => ?_) fun h => (h hnegative).2 hdecimal
    have hhead := congrArg List.head? h.1
    rw [hnegative, signed_true, List.head?_cons, List.head?_cons] at hhead
    exact absurd hhead (by decide)

theorem returns_numeral (hf : f.Separated) (hn : IsPlaced f.places n) (negative : Bool) :
    f.Returns negative n (f.numeral (signed negative (f.writeNumeral n))) := by
  have hunsigned : Decimal.IsNumeral n := hn.isNumeral (.inl rfl : Decimal.IsSign [])
  have hsigned : Decimal.IsNumeral ('-' :: n) := hn.isNumeral (.inr (.inr rfl) : Decimal.IsSign ['-'])
  cases negative with
  | false =>
    have hkept : f.Returns false n (signed false n) :=
      .kept nofun (Decimal.exists_of_isNumeral hunsigned)
    rwa [signed_false, numeral_writeNumeral hf hn]
  | true =>
    rw [signed_true, numeral_eq, List.filterMap_cons, ← numeral_eq, numeral_writeNumeral hf hn,
      plain?]
    by_cases hthousands : f.thousands = some '-'
    · rw [if_pos hthousands]
      exact .dropped rfl hthousands (Decimal.exists_of_isNumeral hunsigned)
    · rw [if_neg hthousands]
      by_cases hdecimal : f.decimal = some '-'
      · rw [if_pos hdecimal]
        exact .pointed rfl hdecimal (hn.readFloat_point (hf.places _ hdecimal))
      · rw [if_neg hdecimal]
        have hkept : f.Returns true n (signed true n) :=
          .kept (fun _ => ⟨hthousands, hdecimal⟩) (Decimal.exists_of_isNumeral hsigned)
        rwa [signed_true] at hkept

end AmountFormat

end Covenant
