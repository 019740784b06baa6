import Covenant.Proofs.Decimal.Numeral
import Covenant.Proofs.Pattern.Language
import Covenant.Proofs.Pattern.Tokens
import Covenant.Proofs.Text.Escapes

/-!
The texts that the patterns of primitive types match.

* `quoted_of_admits`: the pattern of texts matches quoted texts between quotes.
* `integer_of_admits`: the pattern of whole numbers matches digits with a sign.
* `isNumeral_of_admits`: the pattern of doubles matches numerals.
-/

namespace Covenant.Pattern

open Decimal

open Covenant.Symbol (admits_digit_iff admits_range_self digitPattern quotedPattern signPattern
  toPattern_primitive)

variable {p : Pattern} {cs : List Char}

/-- Something that may be missing. -/
theorem admits_optional {lazy : Bool} (h : (Pattern.rep p 0 (some 1) lazy).Admits cs) :
    cs = [] ∨ p.Admits cs := by
  obtain ⟨pieces, rfl, hpieces, -, hmost⟩ := exists_of_admits_rep h
  have hlength := hmost 1 rfl
  rcases pieces with _ | ⟨piece, _ | ⟨other, pieces⟩⟩
  · exact .inl rfl
  · exact .inr (by simpa using hpieces)
  · simp only [List.length_cons] at hlength
    omega

/-! ### Texts -/

theorem isQuoted_append {piece : List Char} (h : quotedPattern.Admits piece)
    (hrest : JsonText.IsQuoted cs) : JsonText.IsQuoted (piece ++ cs) := by
  rcases admits_alt_iff.mp h with h | h
  · obtain ⟨c, hc, rfl⟩ := admits_oneOf_iff.mp h
    have hplain : c ≠ '"' ∧ c ≠ '\\' := by simpa [admits_range_self] using hc
    exact .plain hplain.1 hplain.2 hrest
  · obtain ⟨mark, tail, rfl, hmark, htail⟩ := admits_seq_iff.mp h
    obtain rfl := admits_char_iff.mp hmark
    obtain ⟨c, -, rfl⟩ := admits_any_iff.mp htail
    exact .escape hrest

theorem isQuoted_flatten {pieces : List (List Char)}
    (h : ∀ piece ∈ pieces, quotedPattern.Admits piece) : JsonText.IsQuoted pieces.flatten := by
  induction pieces with
  | nil => exact .nil
  | cons piece pieces ih =>
    obtain ⟨hpiece, hpieces⟩ := List.forall_mem_cons.mp h
    exact isQuoted_append hpiece (ih hpieces)

/-- **The pattern of texts matches quoted texts** between quotes. -/
theorem quoted_of_admits (h : (Symbol.pattern "\"(?:[^\"\\\\]|\\\\.)*\"").toPattern.Admits cs) :
    ∃ body, JsonText.IsQuoted body ∧ cs = '"' :: (body ++ ['"']) := by
  rw [toPattern_primitive.1] at h
  obtain ⟨start, _, rfl, hstart, h⟩ := admits_seq_iff.mp h
  obtain ⟨body, stop, rfl, hbody, hstop⟩ := admits_seq_iff.mp h
  obtain rfl := admits_char_iff.mp hstart
  obtain rfl := admits_char_iff.mp hstop
  obtain ⟨pieces, rfl, hpieces, -⟩ := exists_of_admits_rep hbody
  exact ⟨_, isQuoted_flatten hpieces, rfl⟩

/-! ### Numbers -/

/-- Digits, as many as a repetition asks for. -/
theorem digits_of_admits {least : Nat} {more : Option Nat} {lazy : Bool}
    (h : (Pattern.rep digitPattern least more lazy).Admits cs) :
    (∀ c ∈ cs, c.isDigit = true) ∧ least ≤ cs.length := by
  obtain ⟨hall, hleast, -⟩ := exists_of_admits_class h
  refine ⟨fun c hc => ?_, hleast⟩
  have hadmits := hall c hc
  rwa [List.any_cons, List.any_nil, Bool.or_false, Bool.bne_false, admits_digit_iff] at hadmits

theorem isDigits_of_admits {least : Nat} {more : Option Nat} {lazy : Bool} (hleast : 0 < least)
    (h : (Pattern.rep digitPattern least more lazy).Admits cs) : IsDigits cs := by
  obtain ⟨hall, hlength⟩ := digits_of_admits h
  exact ⟨List.ne_nil_of_length_pos (by omega), hall⟩

theorem isSign_of_admits (h : signPattern.Admits cs) : IsSign cs := by
  rcases admits_optional h with rfl | h
  · exact .inl rfl
  · obtain ⟨d, hd, rfl⟩ := admits_oneOf_iff.mp h
    have hsign : d = '+' ∨ d = '-' := by simpa [admits_range_self] using hd
    rcases hsign with rfl | rfl
    · exact .inr (.inl rfl)
    · exact .inr (.inr rfl)

/-- **The pattern of whole numbers matches digits with a sign.** -/
theorem integer_of_admits (h : (Symbol.pattern "[+-]?[0-9]+").toPattern.Admits cs) :
    ∃ sign ds, IsSign sign ∧ IsDigits ds ∧ cs = sign ++ ds := by
  rw [toPattern_primitive.2.1] at h
  obtain ⟨sign, ds, rfl, hsign, hds⟩ := admits_seq_iff.mp h
  exact ⟨sign, ds, isSign_of_admits hsign, isDigits_of_admits (by decide) hds, rfl⟩

/-- The fraction of a double, without the mark that it may be missing. -/
def fractionPattern : Pattern :=
  .seq (.char '.') (.rep digitPattern 1 none false)

/-- The exponent of a double, without the mark that it may be missing. -/
def exponentPattern : Pattern :=
  .seq (.oneOf false [.range 'e' 'e', .range 'E' 'E'])
    (.seq signPattern (.rep digitPattern 1 none false))

theorem toPattern_double :
    (Symbol.pattern "[+-]?[0-9]+(?:\\.[0-9]+)?(?:[eE][+-]?[0-9]+)?").toPattern =
      .seq signPattern (.seq (.rep digitPattern 1 none false)
        (.seq (.rep fractionPattern 0 (some 1) false) (.rep exponentPattern 0 (some 1) false))) := by
  decide +kernel

/-- **The pattern of doubles matches numerals.** -/
theorem isNumeral_of_admits
    (h : (Symbol.pattern "[+-]?[0-9]+(?:\\.[0-9]+)?(?:[eE][+-]?[0-9]+)?").toPattern.Admits cs) :
    IsNumeral cs := by
  rw [toPattern_double] at h
  obtain ⟨sign, _, rfl, hsign, h⟩ := admits_seq_iff.mp h
  obtain ⟨whole, _, rfl, hwhole, h⟩ := admits_seq_iff.mp h
  obtain ⟨fraction, exponent, rfl, hfraction, hexponent⟩ := admits_seq_iff.mp h
  refine ⟨sign, whole, fraction, exponent, isSign_of_admits hsign,
    isDigits_of_admits (by decide) hwhole, ?_, ?_, rfl⟩
  · refine (admits_optional hfraction).imp_right fun h => ?_
    obtain ⟨point, ds, rfl, hpoint, hds⟩ := admits_seq_iff.mp h
    obtain rfl := admits_char_iff.mp hpoint
    exact ⟨ds, isDigits_of_admits (by decide) hds, rfl⟩
  · refine (admits_optional hexponent).imp_right fun h => ?_
    obtain ⟨letter, _, rfl, hletter, h⟩ := admits_seq_iff.mp h
    obtain ⟨sign, ds, rfl, hsign, hds⟩ := admits_seq_iff.mp h
    obtain ⟨e, he, rfl⟩ := admits_oneOf_iff.mp hletter
    have he' : e = 'e' ∨ e = 'E' := by simpa [admits_range_self] using he
    exact ⟨e, sign, ds, he', isSign_of_admits hsign, isDigits_of_admits (by decide) hds, rfl⟩

end Covenant.Pattern
