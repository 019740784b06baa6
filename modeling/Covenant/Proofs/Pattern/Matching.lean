import Mathlib
import Covenant.Pattern.Reader

/-!
How patterns match.

* `match_literal_iff`: the pattern of a text takes that text as a whole and no other.
* `run_rep_greedy`: a repetition takes all the rounds that there are.
-/

namespace Covenant.Pattern

/-! ### Literals -/

theorem run_literal {β : Type} (ts s : List Char) (n : Nat) (k : Next β) :
    (literal ts).run s n k = match Text.dropStart? ts s with
      | some rest => k rest (n + ts.length)
      | none => none := by
  induction ts generalizing s n with
  | nil => rfl
  | cons c ts ih =>
    cases ts with
    | nil =>
      cases s with
      | nil => rfl
      | cons d s =>
        simp only [literal, run, Text.dropStart?]
        split <;> rfl
    | cons c' ts =>
      cases s with
      | nil => rfl
      | cons d s =>
        simp only [literal, run, Text.dropStart?] at ih ⊢
        split
        · rw [ih]
          simp only [List.length_cons, Nat.add_assoc, Nat.add_comm 1]
        · rfl

theorem dropStart_eq_some {ts s rest : List Char} (h : Text.dropStart? ts s = some rest) :
    s = ts ++ rest := by
  induction ts generalizing s with
  | nil =>
    cases h
    rfl
  | cons t ts ih =>
    cases s with
    | nil => cases h
    | cons c s =>
      simp only [Text.dropStart?] at h
      split at h
      · rw [ih h, ‹t = c›, List.cons_append]
      · cases h

theorem dropStart_append (ts rest : List Char) : Text.dropStart? ts (ts ++ rest) = some rest := by
  induction ts with
  | nil => rfl
  | cons t ts ih => simp [Text.dropStart?, ih]

/-- **The pattern of a text** takes that text as a whole and no other. -/
theorem match_literal_iff {ts cs : List Char} :
    (literal ts).match? cs = some cs.length ↔ cs = ts := by
  rw [match?, run_literal]
  constructor
  · intro h
    split at h
    · rename_i rest hrest
      have hcs := dropStart_eq_some hrest
      simp only [Option.some.injEq, Nat.zero_add] at h
      rw [hcs, List.length_append] at h
      have hnil : rest = [] := List.eq_nil_of_length_eq_zero (by omega)
      rw [hcs, hnil, List.append_nil]
    · cases h
  · rintro rfl
    have hdrop := dropStart_append cs []
    rw [List.append_nil] at hdrop
    rw [hdrop]
    simp

/-! ### Repetitions -/

/-- A pattern reads a piece of text, whatever comes after it. -/
def Takes (p : Pattern) (piece : List Char) : Prop :=
  piece ≠ [] ∧ ∀ tail n, ∀ k : Next Nat, p.run (piece ++ tail) n k = k tail (n + piece.length)

section

variable {p : Pattern} {pieces : List (List Char)} {rest : List Char} {n b : Nat} {k : Next Nat}

/-- As many rounds as there are pieces. -/
theorem rounds_takes (hpieces : ∀ c ∈ pieces, p.Takes c) :
    rounds p.run pieces.length (pieces.flatten ++ rest) n k = k rest (n + pieces.flatten.length) := by
  induction pieces generalizing n with
  | nil => rfl
  | cons c pieces ih =>
    rw [List.length_cons, rounds, List.flatten_cons, List.append_assoc,
      (hpieces c List.mem_cons_self).2, ih fun d hd => hpieces d (List.mem_cons_of_mem _ hd),
      List.length_append, Nat.add_assoc]

/-- **A number of rounds** takes as many pieces. -/
theorem run_count (hpieces : ∀ c ∈ pieces, p.Takes c) :
    (Pattern.rep p pieces.length (some 0) false).run (pieces.flatten ++ rest) n k =
      k rest (n + pieces.flatten.length) := by
  rw [run, rounds_takes hpieces, moreRounds]
  rfl

/-- **More rounds are all that there are** if what follows accepts the rest. -/
theorem moreRounds_greedy {more : Option Nat} (hpieces : ∀ c ∈ pieces, p.Takes c)
    (hmore : ∀ m ∈ more, pieces.length ≤ m) (hrest : ∀ n, ∀ k : Next Nat, p.run rest n k = none)
    {fuel : Nat} (hfuel : pieces.length < fuel) (hk : k rest (n + pieces.flatten.length) = some b) :
    moreRounds p.run false fuel more (pieces.flatten ++ rest) n k = some b := by
  induction pieces generalizing fuel n more with
  | nil =>
    cases fuel with
    | zero => cases hfuel
    | succ fuel =>
      simp only [List.flatten_nil, List.nil_append, List.length_nil, Nat.add_zero] at hk ⊢
      simp [moreRounds, hrest, hk]
  | cons c pieces ih =>
    cases fuel with
    | zero => cases hfuel
    | succ fuel =>
      obtain ⟨hne, hstep⟩ := hpieces c (by simp)
      have hlength : c.length ≠ 0 := by simpa using hne
      have hsome : more ≠ some 0 := by
        rintro rfl
        exact absurd (hmore 0 rfl) (by simp)
      have hagain : moreRounds p.run false fuel (more.map (· - 1)) (pieces.flatten ++ rest)
          (n + c.length) k = some b := by
        apply ih (fun d hd => hpieces d (by simp [hd]))
        · intro m hm
          obtain ⟨m', hm', rfl⟩ := Option.map_eq_some_iff.mp hm
          exact Nat.le_sub_one_of_lt (hmore m' hm')
        · exact Nat.lt_of_succ_lt_succ hfuel
        · rw [← hk, List.flatten_cons, List.length_append, Nat.add_assoc]
      simp only [List.flatten_cons, List.append_assoc, moreRounds, Bool.false_eq_true, if_false,
        if_neg hsome, hstep]
      rw [if_neg (by omega), hagain]
      rfl

/-- Texts that read something are no more than their characters. -/
theorem length_le_flatten_of_ne_nil {pieces : List (List Char)} (h : ∀ piece ∈ pieces, piece ≠ []) :
    pieces.length ≤ pieces.flatten.length := by
  induction pieces with
  | nil => exact Nat.le_refl _
  | cons piece pieces ih =>
    obtain ⟨hpiece, hpieces⟩ := List.forall_mem_cons.mp h
    have hwidth := List.length_pos_iff.mpr hpiece
    have hrest := ih hpieces
    rw [List.flatten_cons, List.length_append, List.length_cons]
    omega

/-- **A repetition takes all the rounds that there are** if what follows accepts the rest. -/
theorem run_rep_greedy {least : Nat} {more : Option Nat} (hpieces : ∀ c ∈ pieces, p.Takes c)
    (hleast : least ≤ pieces.length) (hmore : ∀ m ∈ more, pieces.length ≤ least + m)
    (hrest : ∀ n, ∀ k : Next Nat, p.run rest n k = none)
    (hk : k rest (n + pieces.flatten.length) = some b) :
    (Pattern.rep p least more false).run (pieces.flatten ++ rest) n k = some b := by
  obtain ⟨first, others, rfl, rfl⟩ :
      ∃ first others, pieces = first ++ others ∧ first.length = least :=
    ⟨pieces.take least, pieces.drop least, (List.take_append_drop _ _).symm,
      List.length_take_of_le hleast⟩
  obtain ⟨hfirst, hothers⟩ := List.forall_mem_append.mp hpieces
  rw [run, List.flatten_append, List.append_assoc, rounds_takes hfirst]
  apply moreRounds_greedy hothers
  · intro m hm
    have hbound := hmore m hm
    rw [List.length_append] at hbound
    exact Nat.le_of_add_le_add_left hbound
  · exact hrest
  · have hlength := length_le_flatten_of_ne_nil fun piece hpiece => (hothers piece hpiece).1
    rw [List.length_append]
    omega
  · rw [← hk, List.flatten_append, List.length_append, Nat.add_assoc]

end

end Covenant.Pattern
