import Covenant.Pattern.Reader
import Covenant.Format.Amount
import Covenant.Proofs.Pattern.Tokens

/-!
Reading regular expressions item by item.

* `readSequence_item`: a sequence is read as its first item, repeated as it is marked, and the
  rest of the sequence.
* `readItem_escape`: an escaped character is read as that character.
* `repeated_count`: a count in braces asks for exactly so many rounds.
-/

namespace Covenant.Pattern

open Covenant.Symbol (digitPattern)

variable {p : Pattern} {cs rest : List Char} {fuel : Nat}

def join (p : Pattern) (r : Pattern × List Char) : Pattern × List Char :=
  (if r.1 = .empty then p else .seq p r.1, r.2)

/-- Whether an item may begin with a character. -/
def startsItem (c : Char) : Bool :=
  c != '|' && c != ')'

/-- **A sequence is read item by item.** -/
theorem readSequence_item {c : Char} {cs' : List Char} {q : Pattern} (hc : startsItem c = true)
    (hitem : readItem fuel (c :: cs) = some (p, cs')) (hrepeated : repeated? p cs' = some (q, rest)) :
    readSequence (fuel + 1) (c :: cs) = (readSequence fuel rest).map (join q) := by
  rw [readSequence]
  · simp only [hitem, hrepeated, Option.bind_eq_bind, Option.bind_some, Option.pure_def]
    cases readSequence fuel rest <;> rfl
  · simp
  · rintro _ h
    cases h
    cases hc
  · rintro _ h
    cases h
    cases hc

/-! ### Repetitions -/

theorem repeated_none (h : rounds? cs = none) : repeated? p cs = some (p, cs) := by
  rw [repeated?, h]

/-- A mark that asks for rounds, with a mark after it that makes it lazy or without. -/
theorem repeated_marked {least : Nat} {most : Option Nat} (isLazy : Bool)
    (h : rounds? cs = some ((least, most), if isLazy then '?' :: rest else rest))
    (hrest : isLazy = false → ∀ rest', rest ≠ '?' :: rest') : repeated? p cs =
      if most.any (· < least) || (rounds? rest).isSome then none
      else some (.rep p least (most.map (· - least)) isLazy, rest) := by
  rw [repeated?, h]
  by_cases hle : most.any (· < least) = true
  · cases isLazy <;> simp only [hle, Bool.true_or, if_true] <;> rfl
  · cases isLazy with
    | true =>
      simp only [hle, Bool.false_or, if_true]
      rfl
    | false =>
      simp only [hle, Bool.false_or, Bool.false_eq_true, if_false]
      split
      · exact absurd rfl (hrest rfl _)
      · rfl

/-- A mark that asks for rounds, with no other mark after it. -/
theorem repeated_some {least : Nat} {most : Option Nat} (h : rounds? cs = some ((least, most), rest))
    (hle : ∀ m ∈ most, least ≤ m) (hrest : rounds? rest = none) :
    repeated? p cs = some (.rep p least (most.map (· - least)) false, rest) := by
  have hplain : ∀ rest', rest ≠ '?' :: rest' := by
    rintro rest' rfl
    cases hrest
  have hmost : most.any (· < least) = false := by
    cases most with
    | none => rfl
    | some m => simpa using hle m rfl
  rw [repeated_marked false h fun _ => hplain, hmost, hrest]
  rfl

theorem rounds_count {ds : List Char} (hds : ds ≠ []) (hdigits : ∀ c ∈ ds, c.isDigit = true) :
    rounds? ('\x7b' :: (ds ++ '\x7d' :: rest)) =
      some ((Text.digitsValue ds, some (Text.digitsValue ds)), rest) := by
  have hstop : Char.isDigit '\x7d' = false := rfl
  have hlow : (ds ++ '\x7d' :: rest).takeWhile Char.isDigit = ds := by
    rw [List.takeWhile_append_of_pos hdigits]
    simp [hstop]
  have hrest : (ds ++ '\x7d' :: rest).dropWhile Char.isDigit = '\x7d' :: rest := by
    rw [List.dropWhile_append_of_pos hdigits]
    simp [hstop]
  simp [rounds?, braces?, hlow, hrest, hds]

/-- **A count in braces** asks for exactly so many rounds. -/
theorem repeated_count (n : Nat) (hrest : rounds? rest = none) :
    repeated? p ('\x7b' :: ((toString n).toList ++ '\x7d' :: rest)) =
      some (.rep p n (some 0) false, rest) := by
  have hds : (toString n).toList = Nat.toDigits 10 n := by simp
  rw [hds]
  have hrounds : rounds? ('\x7b' :: (Nat.toDigits 10 n ++ '\x7d' :: rest)) = _ :=
    rounds_count Nat.toDigits_ne_nil fun c hc => Text.isDigit_of_mem_toDigits hc
  rw [Text.digitsValue_toDigits] at hrounds
  simpa using repeated_some (p := p) hrounds (by simp) hrest

theorem repeated_plus (hrest : rounds? rest = none) :
    repeated? p ('+' :: rest) = some (.rep p 1 none false, rest) := by
  have hrounds : rounds? ('+' :: rest) = some ((1, none), rest) := rfl
  exact repeated_some hrounds (by simp) hrest

theorem repeated_optional (hrest : rounds? rest = none) :
    repeated? p ('?' :: rest) = some (.rep p 0 (some 1) false, rest) := by
  have hrounds : rounds? ('?' :: rest) = some ((0, some 1), rest) := rfl
  exact repeated_some hrounds (by simp) hrest

/-! ### Items -/

theorem readItem_digit : readItem (fuel + 1) ("[0-9]".toList ++ rest) = some (digitPattern, rest) := by
  rfl

/-- The characters that are escaped where they stand for themselves. -/
def special : List Char :=
  "()[]\x7b\x7d?*+-|^$\\.&~# \t\n\r\x0b\x0c".toList

/-- An escape of a character without a meaning is that character. -/
theorem charEscape_self {c : Char} (hcontrol : controlEscape? c = none)
    (hplain : c.isAlphanum = false) : charEscape? (c :: rest) = some (c, rest) := by
  unfold charEscape?
  split
  · simp_all
  · rename_i heq
    cases heq
    cases hplain
  · rename_i heq
    cases heq
    cases hplain
  · rename_i heq
    cases heq
    cases hplain
  · rename_i heq
    cases heq
    cases hplain
  · rename_i heq
    cases heq
    rw [hcontrol]
    simp [hplain]

/-- **A character after a backslash** without a meaning of its own there stands for itself. -/
theorem readItem_escaped {c : Char} (h : ((classEscape? c).isNone && (controlEscape? c).isNone &&
    !c.isAlphanum) = true) : readItem (fuel + 1) ('\\' :: c :: rest) = some (.char c, rest) := by
  simp only [Bool.and_eq_true, Option.isNone_iff_eq_none, Bool.not_eq_true'] at h
  obtain ⟨⟨hclass, hcontrol⟩, hplain⟩ := h
  rw [readItem, hclass]
  simp only [charEscape_self hcontrol hplain]
  rfl

/-- The characters with which an item begins that does not stand for itself. -/
def marks : List Char :=
  ".([\\*+?^$\x7b".toList

/-- A character that is no mark stands for itself. -/
theorem readItem_self {c : Char} (h : c ∉ marks) :
    readItem (fuel + 1) (c :: rest) = some (.char c, rest) := by
  have hne : ∀ d ∈ marks, c ≠ d := by
    rintro d hd rfl
    exact h hd
  rw [readItem]
  · exact hne '.' (by decide)
  · exact hne '(' (by decide)
  · exact fun _ hc => absurd hc (hne '[' (by decide))
  · exact hne '[' (by decide)
  · exact fun _ _ hc => absurd hc (hne '\\' (by decide))
  · exact fun hc => absurd hc (hne '\\' (by decide))
  · exact hne '*' (by decide)
  · exact hne '+' (by decide)
  · exact hne '?' (by decide)
  · exact hne '^' (by decide)
  · exact hne '$' (by decide)
  · exact hne '\x7b' (by decide)

/-- **An escaped character is read as that character.** -/
theorem readItem_escape (c : Char) :
    readItem (fuel + 1) (escapeRegex c ++ rest) = some (.char c, rest) := by
  unfold escapeRegex
  split
  · rename_i hspecial
    have hall : (special.all fun c => (classEscape? c).isNone && (controlEscape? c).isNone &&
        !c.isAlphanum) = true := by decide
    exact readItem_escaped (List.all_eq_true.mp hall c (List.contains_iff_mem.mp hspecial))
  · rename_i hplain
    have hmarks : marks ⊆ special := by decide
    exact readItem_self fun hmem => hplain (List.contains_iff_mem.mpr (hmarks hmem))

/-- A character that stands for itself neither ends a sequence nor repeats the item before. -/
theorem starts_self {c : Char} (h : c ∉ "|)*+?\x7b".toList) :
    startsItem c = true ∧ ∀ rest, rounds? (c :: rest) = none := by
  have hne : ∀ d ∈ "|)*+?\x7b".toList, c ≠ d := by
    rintro d hd rfl
    exact h hd
  refine ⟨by simp [startsItem, hne '|' (by decide), hne ')' (by decide)], fun rest => ?_⟩
  rw [rounds?]
  · exact fun _ h => absurd (List.cons.inj h).1 (hne '*' (by decide))
  · exact fun _ h => absurd (List.cons.inj h).1 (hne '+' (by decide))
  · exact fun _ h => absurd (List.cons.inj h).1 (hne '?' (by decide))
  · exact fun _ h => absurd (List.cons.inj h).1 (hne '\x7b' (by decide))

/-- What an escaped character begins with is neither a bar nor a bracket, and no mark of a
repetition. -/
theorem escapeRegex_starts (c : Char) : ∃ d ds, escapeRegex c = d :: ds ∧ startsItem d = true ∧
    ∀ rest, rounds? (escapeRegex c ++ rest) = none := by
  unfold escapeRegex
  split
  · exact ⟨'\\', [c], rfl, rfl, fun _ => rfl⟩
  · rename_i hplain
    have hends : "|)*+?\x7b".toList ⊆ special := by decide
    have hstarts := starts_self fun hmem => hplain (List.contains_iff_mem.mpr (hends hmem))
    exact ⟨c, [], rfl, hstarts⟩

/-- **A way to write characters** that are read as they are: as items, and not as what ends a
sequence or repeats the item before. -/
structure Spelling (write : Char → List Char) : Prop where
  item : ∀ c fuel rest, readItem (fuel + 1) (write c ++ rest) = some (.char c, rest)
  starts : ∀ c, ∃ d ds, write c = d :: ds ∧ startsItem d = true ∧
    ∀ rest, rounds? (write c ++ rest) = none

/-- A sequence that begins with a character. -/
theorem Spelling.readSequence {write : Char → List Char} (h : Spelling write) (c : Char)
    {q : Pattern} {cs' : List Char} (hrepeated : repeated? (.char c) cs = some (q, cs')) :
    readSequence (fuel + 2) (write c ++ cs) = (readSequence (fuel + 1) cs').map (join q) := by
  obtain ⟨d, ds, hwrite, hstart, -⟩ := h.starts c
  have hitem := h.item c fuel cs
  rw [hwrite] at hitem ⊢
  exact readSequence_item hstart hitem hrepeated

theorem spelling_escapeRegex : Spelling escapeRegex :=
  ⟨fun c _ _ => readItem_escape c, escapeRegex_starts⟩

/-- A sequence that begins with a digit. -/
theorem readSequence_digit {q : Pattern} {cs' : List Char}
    (hrepeated : repeated? digitPattern cs = some (q, cs')) :
    readSequence (fuel + 2) ("[0-9]".toList ++ cs) = (readSequence (fuel + 1) cs').map (join q) :=
  readSequence_item (by rfl) readItem_digit hrepeated

/-! ### Choices and brackets -/

/-- A sequence ends at a bar or a closing bracket. -/
theorem readSequence_stop {c : Char} (hc : startsItem c = false) :
    readSequence (fuel + 1) (c :: rest) = some (.empty, c :: rest) := by
  have hstop : c = '|' ∨ c = ')' := by
    simp only [startsItem, Bool.and_eq_false_iff, bne_eq_false_iff_eq] at hc
    exact hc
  rcases hstop with rfl | rfl <;> rw [readSequence]

/-- A choice whose last alternative ends at a closing bracket or at the end. -/
theorem readChoice_last (hrest : ∀ tail, rest ≠ '|' :: tail)
    (h : readSequence fuel cs = some (p, rest)) : readChoice (fuel + 1) cs = some (p, rest) := by
  rw [readChoice, h]
  simp only [Option.bind_eq_bind, Option.bind_some]
  rfl

theorem readChoice_bar {q : Pattern} {cs' : List Char}
    (h : readSequence fuel cs = some (p, '|' :: cs')) (hrest : readChoice fuel cs' = some (q, rest)) :
    readChoice (fuel + 1) cs = some (.alt p q, rest) := by
  rw [readChoice, h]
  simp only [Option.bind_eq_bind, Option.bind_some, hrest]
  rfl

/-- A choice in brackets is an item. -/
theorem readItem_brackets (h : readChoice fuel cs = some (p, ')' :: rest)) :
    readItem (fuel + 1) ('(' :: '?' :: ':' :: cs) = some (p, rest) := by
  rw [readItem, groupStart?]
  simp only [Option.bind_eq_bind, Option.bind_some, h]
  rfl

theorem readSequence_nil : readSequence (fuel + 1) [] = some (.empty, []) := by
  rw [readSequence]

end Covenant.Pattern
