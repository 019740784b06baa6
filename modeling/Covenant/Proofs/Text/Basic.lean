import Mathlib
import Covenant.Text.Basic

/-!
Numerals, and the pieces of a text.

* `digitsValue_toDigits`: the digits of a number write that number.
* `toList_toString_ofNat`, `toList_toString_negSucc`: a whole number is written by its
  digits, after its sign.
* `splitAt_append`: a piece ends where the separator first occurs.
* `mem_splitAt`: every character is a separator or in a piece.
* `intercalate_splitAt`, `splitAt_intercalate`: pieces with the separator between them make up
  the text that is split into them.
* `withoutLineFeed_cases`: one line feed at the end of a text may be left out.
-/

namespace Covenant.Text

/-! ### Numerals -/

theorem digitsValue_eq_ofDigitChars (cs : List Char) : digitsValue cs = Nat.ofDigitChars 10 cs 0 :=
  rfl

theorem digitsValue_toDigits (n : Nat) : digitsValue (Nat.toDigits 10 n) = n := by
  rw [digitsValue_eq_ofDigitChars, Nat.ofDigitChars_ten_toDigits]

theorem isDigit_of_mem_toDigits {n : Nat} {c : Char} (hc : c ∈ Nat.toDigits 10 n) :
    c.isDigit = true :=
  Nat.isDigit_of_mem_toDigits (by decide) (by decide) hc

theorem toList_toString_ofNat (n : Nat) : (toString (Int.ofNat n)).toList = Nat.toDigits 10 n := by
  rw [show toString (Int.ofNat n) = n.repr from rfl, Nat.toList_repr]

theorem toList_toString_negSucc (n : Nat) :
    (toString (Int.negSucc n)).toList = '-' :: Nat.toDigits 10 (n + 1) := by
  rw [show toString (Int.negSucc n) = "-" ++ (n + 1).repr from rfl, String.toList_append,
    Nat.toList_repr]
  rfl

/-! ### Pieces -/

variable {sep : Char}

theorem splitAt_cons (sep c : Char) (cs : List Char) :
    ∃ piece pieces, splitAt sep cs = piece :: pieces ∧ splitAt sep (c :: cs)
      = if c = sep then [] :: piece :: pieces else (c :: piece) :: pieces := by
  have hne : ∀ ds : List Char, splitAt sep ds ≠ [] := by
    intro ds
    cases ds with
    | nil => simp [splitAt]
    | cons d ds =>
      rw [splitAt]
      split
      · simp
      · split <;> simp
  cases hcs : splitAt sep cs with
  | nil => exact absurd hcs (hne cs)
  | cons piece pieces => exact ⟨piece, pieces, rfl, by rw [splitAt, hcs]⟩

theorem mem_splitAt (sep : Char) {cs : List Char} {c : Char} (hc : c ∈ cs) :
    c = sep ∨ ∃ piece ∈ splitAt sep cs, c ∈ piece := by
  induction cs with
  | nil => cases hc
  | cons d ds ih =>
    obtain ⟨piece, pieces, hds, hsplit⟩ := splitAt_cons sep d ds
    rw [hds] at ih
    rw [hsplit]
    by_cases hd : d = sep
    · rcases List.mem_cons.mp hc with rfl | hc
      · exact .inl hd
      · rcases ih hc with h | ⟨p, hp, h⟩
        · exact .inl h
        · exact .inr ⟨p, by simp [hd, hp], h⟩
    · rw [if_neg hd]
      rcases List.mem_cons.mp hc with rfl | hc
      · exact .inr ⟨_, List.mem_cons_self, by simp⟩
      · rcases ih hc with h | ⟨p, hp, h⟩
        · exact .inl h
        · rcases List.mem_cons.mp hp with rfl | hp
          · exact .inr ⟨_, List.mem_cons_self, by simp [h]⟩
          · exact .inr ⟨p, by simp [hp], h⟩

/-- A text without the separator is one piece. -/
theorem splitAt_of_notMem {cs : List Char} (h : sep ∉ cs) : splitAt sep cs = [cs] := by
  induction cs with
  | nil => rfl
  | cons c cs ih =>
    obtain ⟨hc, hcs⟩ := not_or.mp (mt List.mem_cons.mpr h)
    obtain ⟨piece, pieces, hsplit, hcons⟩ := splitAt_cons sep c cs
    rw [ih hcs] at hsplit
    cases hsplit
    rw [hcons, if_neg (Ne.symm hc)]

/-- **A piece ends where the separator first occurs.** -/
theorem splitAt_append {piece : List Char} (h : sep ∉ piece) (cs : List Char) :
    splitAt sep (piece ++ sep :: cs) = piece :: splitAt sep cs := by
  induction piece with
  | nil =>
    obtain ⟨piece, pieces, hsplit, hcons⟩ := splitAt_cons sep sep cs
    rw [List.nil_append, hcons, if_pos rfl, hsplit]
  | cons c piece ih =>
    obtain ⟨hc, hpiece⟩ := not_or.mp (mt List.mem_cons.mpr h)
    obtain ⟨first, pieces, hsplit, hcons⟩ := splitAt_cons sep c (piece ++ sep :: cs)
    rw [ih hpiece] at hsplit
    cases hsplit
    rw [List.cons_append, hcons, if_neg (Ne.symm hc)]

/-- Pieces of a text with the separator between them make up the text. -/
theorem intercalate_splitAt (sep : Char) (cs : List Char) :
    [sep].intercalate (splitAt sep cs) = cs := by
  induction cs with
  | nil => simp [splitAt]
  | cons c cs ih =>
    obtain ⟨piece, pieces, hsplit, hcons⟩ := splitAt_cons sep c cs
    rw [hsplit] at ih
    rw [hcons]
    split
    · rename_i hc
      rw [List.intercalate_cons_cons, ih, hc]
      rfl
    · cases pieces with
      | nil =>
        rw [List.intercalate_singleton] at ih ⊢
        rw [ih]
      | cons next pieces =>
        rw [List.intercalate_cons_cons] at ih ⊢
        rw [← ih]
        rfl

/-- Pieces without the separator are what their text is split into. -/
theorem splitAt_intercalate {pieces : List (List Char)} (hne : pieces ≠ [])
    (h : ∀ piece ∈ pieces, sep ∉ piece) : splitAt sep ([sep].intercalate pieces) = pieces := by
  induction pieces with
  | nil => exact absurd rfl hne
  | cons piece pieces ih =>
    obtain ⟨hpiece, hpieces⟩ := List.forall_mem_cons.mp h
    cases pieces with
    | nil =>
      rw [List.intercalate_singleton]
      exact splitAt_of_notMem hpiece
    | cons next pieces =>
      have hrest := ih (List.cons_ne_nil next pieces) hpieces
      rw [List.intercalate_cons_cons, List.append_assoc]
      exact (splitAt_append hpiece _).trans (congrArg (piece :: ·) hrest)

/-- A text is as it is without a line feed at its end, or has one more line feed. -/
theorem withoutLineFeed_cases (cs : List Char) :
    withoutLineFeed cs = cs ∨ cs = withoutLineFeed cs ++ ['\n'] := by
  unfold withoutLineFeed
  split
  · rename_i hlast
    obtain ⟨ds, rfl⟩ := List.getLast?_eq_some_iff.mp hlast
    exact .inr (by rw [List.dropLast_concat])
  · exact .inl rfl

/-- One line feed at the end is left out. -/
theorem withoutLineFeed_feed (s : String) : withoutLineFeed (s ++ "\n").toList = s.toList := by
  rw [String.toList_append, withoutLineFeed, if_pos (by simp)]
  simp

theorem withoutLineFeed_eq_self {cs : List Char} (h : cs.getLast? ≠ some '\n') :
    withoutLineFeed cs = cs :=
  if_neg h

end Covenant.Text
