import Covenant.Proofs.Pattern.Primitives

/-!
Texts that are cut in one way only.

* `admits_rep`: what is put together from texts of a pattern is matched by a repetition of it.
* `exists_split`: a text that is put together from texts of patterns is cut into such texts.
* `split_of_unique`: if it can be cut in one way only, it is cut as it was put together.
* `unique_of_widths`: so it is if all patterns but one match texts of one width each.
-/

namespace Covenant.Pattern

open Covenant.Symbol (admits_digit_iff digitPattern flatten_singletons)

variable {p : Pattern} {s cs : List Char} {pieces : List (List Char)}

instance : Decidable (p.Admits cs) :=
  inferInstanceAs (Decidable (_ ∈ _))

/-! ### Repetitions -/

theorem mem_ways_append {piece : List Char} (h : p.Admits piece) (rest : List Char) :
    piece.length ∈ p.ways (piece ++ rest) := by
  apply mem_ways_iff.mpr
  rw [List.take_left, List.length_append]
  exact ⟨Nat.le_add_right _ _, h⟩

theorem mem_roundWays (h : ∀ piece ∈ pieces, p.Admits piece) (rest : List Char) :
    pieces.flatten.length ∈ roundWays p.ways pieces.length (pieces.flatten ++ rest) := by
  induction pieces with
  | nil => exact List.mem_singleton.mpr rfl
  | cons piece pieces ih =>
    obtain ⟨hpiece, hpieces⟩ := List.forall_mem_cons.mp h
    rw [List.flatten_cons, List.append_assoc]
    apply mem_flatMap_iff.mpr
    refine ⟨piece.length, mem_ways_append hpiece _, pieces.flatten.length, ?_, by simp⟩
    rw [List.drop_left]
    exact ih hpieces

/-- Texts that read something are rounds, as long as more rounds may be had. -/
theorem mem_moreWays (h : ∀ piece ∈ pieces, p.Admits piece ∧ piece ≠ []) (lazy : Bool)
    {more : Option Nat} (hmore : ∀ m ∈ more, pieces.length ≤ m) {fuel : Nat}
    (hfuel : pieces.length ≤ fuel) (rest : List Char) :
    pieces.flatten.length ∈ moreWays p.ways lazy fuel more (pieces.flatten ++ rest) := by
  have hnil : ∀ fuel more s, 0 ∈ moreWays p.ways lazy fuel more s := by
    intro fuel more s
    cases fuel with
    | zero => exact List.mem_singleton.mpr rfl
    | succ fuel => cases lazy <;> simp [moreWays]
  induction pieces generalizing fuel more with
  | nil => exact hnil _ _ _
  | cons piece pieces ih =>
    obtain ⟨⟨hpiece, hne⟩, hpieces⟩ := List.forall_mem_cons.mp h
    cases fuel with
    | zero => cases hfuel
    | succ fuel =>
      have hsome : more ≠ some 0 := fun hzero => absurd (hmore 0 hzero) (by simp)
      have hwidth : piece.length ≠ 0 := fun hzero => hne (List.eq_nil_of_length_eq_zero hzero)
      have hrest : pieces.flatten.length ∈
          moreWays p.ways lazy fuel (more.map (· - 1)) (pieces.flatten ++ rest) := by
        apply ih hpieces
        · intro m hm
          obtain ⟨m', hm', rfl⟩ := Option.map_eq_some_iff.mp hm
          exact Nat.le_sub_one_of_lt (hmore m' hm')
        · exact Nat.le_of_succ_le_succ hfuel
      have hagain : (piece :: pieces).flatten.length ∈ (if more = some 0 then [] else
          (p.ways ((piece :: pieces).flatten ++ rest)).flatMap fun a =>
            (if a = 0 then [0] else moreWays p.ways lazy fuel (more.map (· - 1))
              (((piece :: pieces).flatten ++ rest).drop a)).map (a + ·)) := by
        rw [if_neg hsome, List.flatten_cons, List.append_assoc]
        apply mem_flatMap_iff.mpr
        refine ⟨piece.length, mem_ways_append hpiece _, pieces.flatten.length, ?_, by simp⟩
        rw [if_neg hwidth, List.drop_left]
        exact hrest
      rw [moreWays]
      cases lazy with
      | false => exact List.mem_append_left _ hagain
      | true => exact List.mem_cons_of_mem _ hagain

/-- **What is put together from texts of a pattern** is matched by a repetition that asks for so
many. -/
theorem admits_rep {least : Nat} {more : Option Nat} (lazy : Bool)
    (h : ∀ piece ∈ pieces, p.Admits piece ∧ piece ≠ []) (hleast : least ≤ pieces.length)
    (hmore : ∀ m ∈ more, pieces.length ≤ least + m) :
    (Pattern.rep p least more lazy).Admits pieces.flatten := by
  obtain ⟨first, rest, rfl, rfl⟩ :
      ∃ first rest, pieces = first ++ rest ∧ first.length = least :=
    ⟨pieces.take least, pieces.drop least, (List.take_append_drop _ _).symm,
      List.length_take_of_le hleast⟩
  obtain ⟨hfirst, hrest⟩ := List.forall_mem_append.mp h
  have hrounds : first.flatten.length ∈
      roundWays p.ways first.length (first.flatten ++ rest.flatten) :=
    mem_roundWays (fun piece hpiece => (hfirst piece hpiece).1) _
  have hways : rest.flatten.length ∈
      moreWays p.ways lazy (rest.flatten.length + 1) more (rest.flatten ++ []) := by
    apply mem_moreWays hrest
    · intro m hm
      have hbound := hmore m hm
      rw [List.length_append] at hbound
      exact Nat.le_of_add_le_add_left hbound
    · have hnarrow := length_le_flatten_of_ne_nil fun piece hpiece => (hrest piece hpiece).2
      exact Nat.le_succ_of_le hnarrow
  rw [List.append_nil] at hways
  rw [Admits, List.flatten_append]
  apply mem_flatMap_iff.mpr
  refine ⟨first.flatten.length, hrounds, rest.flatten.length, ?_, by simp⟩
  rw [List.drop_left]
  exact hways

/-- Characters of a class, as many as a repetition asks for. -/
theorem admits_class {negated : Bool} {parts : List ClassPart} {least : Nat} {more : Option Nat}
    (lazy : Bool) (h : ∀ c ∈ cs, (parts.any (·.admits c) != negated) = true)
    (hleast : least ≤ cs.length) (hmore : ∀ m ∈ more, cs.length ≤ least + m) :
    (Pattern.rep (.oneOf negated parts) least more lazy).Admits cs := by
  have hpieces : ∀ piece ∈ cs.map ([·]),
      (Pattern.oneOf negated parts).Admits piece ∧ piece ≠ [] := by
    intro piece hpiece
    obtain ⟨c, hc, rfl⟩ := List.mem_map.mp hpiece
    exact ⟨admits_oneOf_iff.mpr ⟨c, h c hc, rfl⟩, List.cons_ne_nil _ _⟩
  have hcount : (cs.map ([·])).length = cs.length := List.length_map _
  have hrep := admits_rep lazy hpieces (hcount ▸ hleast) (hcount ▸ hmore)
  rwa [flatten_singletons] at hrep

/-- **Digits**, as many as a repetition asks for, and nothing else. -/
theorem admits_digits_iff {least : Nat} {more : Option Nat} {lazy : Bool} :
    (Pattern.rep digitPattern least more lazy).Admits cs ↔
      (∀ c ∈ cs, c.isDigit = true) ∧ least ≤ cs.length ∧ ∀ m ∈ more, cs.length ≤ least + m := by
  constructor
  · intro h
    obtain ⟨-, hbounds⟩ := exists_of_admits_class h
    exact ⟨(digits_of_admits h).1, hbounds⟩
  · rintro ⟨hdigits, hleast, hmore⟩
    refine admits_class lazy (fun c hc => ?_) hleast hmore
    rw [List.any_cons, List.any_nil, Bool.or_false, Bool.bne_false]
    exact admits_digit_iff.mpr (hdigits c hc)

theorem admits_optional_iff {lazy : Bool} (hp : ¬ p.Admits []) :
    (Pattern.rep p 0 (some 1) lazy).Admits cs ↔ cs = [] ∨ p.Admits cs := by
  constructor
  · exact admits_optional
  · rintro (rfl | h)
    · have hnone : ∀ piece ∈ ([] : List (List Char)), p.Admits piece ∧ piece ≠ [] := nofun
      exact admits_rep lazy hnone (Nat.le_refl _) fun _ _ => Nat.zero_le _
    · have hone : ∀ piece ∈ [cs], p.Admits piece ∧ piece ≠ [] := by
        refine List.forall_mem_singleton.mpr ⟨h, ?_⟩
        rintro rfl
        exact hp h
      have hmost : ∀ m ∈ some 1, [cs].length ≤ 0 + m := by
        intro m hm
        cases hm
        exact Nat.le_refl _
      have hrep := admits_rep lazy hone (Nat.zero_le _) hmost
      rwa [List.flatten_singleton] at hrep

/-- The pattern of a text matches that text. -/
theorem admits_literal_iff {ts : List Char} : (literal ts).Admits cs ↔ cs = ts := by
  induction ts generalizing cs with
  | nil => exact admits_empty_iff
  | cons c ts ih =>
    cases ts with
    | nil => exact admits_char_iff
    | cons d ts =>
      rw [literal, admits_seq_iff]
      · constructor
        · rintro ⟨front, back, rfl, hfront, hback⟩
          rw [admits_char_iff.mp hfront, ih.mp hback]
          rfl
        · rintro rfl
          exact ⟨[c], d :: ts, rfl, admits_char_iff.mpr rfl, ih.mpr rfl⟩
      · exact fun h => List.cons_ne_nil _ _ h

theorem admits_literalSymbol_iff {ts : List Char} :
    (Symbol.literal (String.ofList ts)).toPattern.Admits cs ↔ cs = ts := by
  change (literal (String.ofList ts).toList).Admits cs ↔ _
  rw [String.toList_ofList, admits_literal_iff]

/-! ### Cutting texts -/

variable {ps : List Pattern}

/-- **A text that is put together from texts of patterns** is cut into such texts. -/
theorem exists_split (h : List.Forall₂ Admits ps pieces) :
    ∃ found, split? ps pieces.flatten = some found := by
  induction h with
  | nil => exact ⟨[], rfl⟩
  | @cons p piece ps pieces hpiece _ ih =>
    obtain ⟨found, hfound⟩ := ih
    have hway : piece.length ∈ p.ways (piece ++ pieces.flatten) := mem_ways_append hpiece _
    rw [split?, run_eq, List.flatten_cons]
    apply Option.isSome_iff_exists.mp
    rw [List.findSome?_isSome_iff]
    refine ⟨piece.length, hway, ?_⟩
    rw [List.drop_left, hfound]
    rfl

/-- **A text that can be cut in one way only** is cut as it was put together. -/
theorem split_of_unique (h : List.Forall₂ Admits ps pieces)
    (hunique : ∀ found, List.Forall₂ Admits ps found → found.flatten = pieces.flatten →
      found = pieces) : split? ps pieces.flatten = some pieces := by
  obtain ⟨found, hfound⟩ := exists_split h
  obtain ⟨hall, hflatten⟩ := admits_of_split hfound
  rw [hfound, hunique found hall hflatten]

def HasWidth (p : Pattern) : Prop :=
  ∃ n, ∀ cs, p.Admits cs → cs.length = n

/-- Texts of patterns with widths have the same lengths. -/
theorem lengths_eq {found : List (List Char)} (hps : ∀ p ∈ ps, p.HasWidth)
    (h : List.Forall₂ Admits ps pieces) (h' : List.Forall₂ Admits ps found) :
    found.map List.length = pieces.map List.length := by
  induction h generalizing found with
  | nil =>
    cases h'
    rfl
  | cons hpiece _ ih =>
    obtain ⟨⟨n, hn⟩, hrest⟩ := List.forall_mem_cons.mp hps
    cases h' with
    | cons hpiece' hall' => rw [List.map_cons, List.map_cons, hn _ hpiece, hn _ hpiece', ih hrest hall']

/-- **All patterns but one have widths**: then a text can be cut in one way only. -/
theorem unique_of_widths {before after : List Pattern} {found : List (List Char)}
    (hbefore : ∀ p ∈ before, p.HasWidth) (hafter : ∀ p ∈ after, p.HasWidth)
    (h : List.Forall₂ Admits (before ++ p :: after) pieces)
    (h' : List.Forall₂ Admits (before ++ p :: after) found)
    (hflatten : found.flatten = pieces.flatten) : found = pieces := by
  induction before generalizing pieces found with
  | nil =>
    cases h with
    | cons _ hrest =>
      cases h' with
      | cons _ hrest' =>
        have hlengths := lengths_eq hafter hrest hrest'
        obtain ⟨rfl, htail⟩ := List.append_inj' hflatten
          (by rw [List.length_flatten, List.length_flatten, hlengths])
        rw [List.eq_iff_flatten_eq.mpr ⟨htail, hlengths⟩]
  | cons q before ih =>
    obtain ⟨⟨n, hn⟩, hbefore⟩ := List.forall_mem_cons.mp hbefore
    cases h with
    | cons hpiece hrest =>
      cases h' with
      | cons hpiece' hrest' =>
        obtain ⟨rfl, htail⟩ := List.append_inj hflatten ((hn _ hpiece').trans (hn _ hpiece).symm)
        rw [ih hbefore hrest hrest' htail]

end Covenant.Pattern
