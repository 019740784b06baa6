import Covenant.Proofs.Pattern.Brackets
import Covenant.Proofs.Pattern.Cutting

/-!
Expressions that are put together from symbols.

* `Assembled`: an expression made of escaped texts and of expressions in brackets, with the symbols
  that these parts stand for.
* `Assembled.ofChars`: such an expression can be read, and matches the texts that are put together
  from texts of its symbols, in their order.
-/

namespace Covenant.Pattern

variable {p q : Pattern} {cs text : List Char}

/-! ### Items in front of a sequence -/

/-- **An item in front of a sequence** matches what the one and the other match. -/
theorem admits_join_iff : (join p (q, [])).1.Admits text ↔
    ∃ front back, text = front ++ back ∧ p.Admits front ∧ q.Admits back := by
  rw [join]
  split
  · rename_i hempty
    rw [show q = .empty from hempty]
    simp only [admits_empty_iff]
    constructor
    · exact fun h => ⟨text, [], (List.append_nil _).symm, h, rfl⟩
    · rintro ⟨front, _, rfl, hfront, rfl⟩
      rwa [List.append_nil]
  · exact admits_seq_iff

/-- Characters that stand for themselves, in front of a sequence. -/
def spelled (ts : List Char) (q : Pattern) : Pattern :=
  ts.foldr (fun c q => (join (.char c) (q, [])).1) q

theorem admits_spelled_iff {ts : List Char} :
    (spelled ts q).Admits text ↔ ∃ rest, text = ts ++ rest ∧ q.Admits rest := by
  induction ts generalizing text with
  | nil => exact ⟨fun h => ⟨text, rfl, h⟩, by rintro ⟨rest, rfl, h⟩; exact h⟩
  | cons c ts ih =>
    rw [spelled, List.foldr_cons, ← spelled, admits_join_iff]
    simp only [admits_char_iff, ih]
    constructor
    · rintro ⟨_, _, rfl, rfl, rest, rfl, h⟩
      exact ⟨rest, rfl, h⟩
    · rintro ⟨rest, rfl, h⟩
      exact ⟨[c], ts ++ rest, rfl, rfl, rest, rfl, h⟩

/-- **Characters that are spelled out** are read as they stand. -/
theorem readSequence_spelled {write : Char → List Char} (hwrite : Spelling write) (ts : List Char)
    (hmark : rounds? cs = none)
    (h : ∀ fuel, 3 * cs.length + 2 ≤ fuel → readSequence fuel cs = some (q, [])) :
    rounds? (ts.flatMap write ++ cs) = none ∧ ∀ fuel,
      3 * (ts.flatMap write ++ cs).length + 2 ≤ fuel →
        readSequence fuel (ts.flatMap write ++ cs) = some (spelled ts q, []) := by
  induction ts with
  | nil => exact ⟨hmark, h⟩
  | cons c ts ih =>
    obtain ⟨hmark, hread⟩ := ih
    obtain ⟨d, ds, hchar, -, hplain⟩ := hwrite.starts c
    rw [List.flatMap_cons, List.append_assoc]
    refine ⟨hplain _, fun fuel hfuel => ?_⟩
    have hlength : 1 ≤ (write c).length := by
      rw [hchar]
      simp
    rw [List.length_append] at hfuel
    obtain ⟨fuel, rfl⟩ := Nat.exists_eq_add_of_le' (show 2 ≤ fuel by omega)
    rw [hwrite.readSequence c (repeated_none hmark), hread (fuel + 1) (by omega)]
    rfl

/-- **A text that is spelled out** is read as a sequence of its characters. -/
theorem ofChars_spelled {write : Char → List Char} (hwrite : Spelling write) (ts : List Char) :
    Pattern.ofChars? (ts.flatMap write) = some (spelled ts .empty) := by
  have hnil : ∀ fuel, 3 * ([] : List Char).length + 2 ≤ fuel →
      Pattern.readSequence fuel [] = some (.empty, []) := by
    intro fuel hfuel
    obtain ⟨fuel, rfl⟩ := Nat.exists_eq_add_of_le' (show 1 ≤ fuel by omega)
    exact readSequence_nil
  obtain ⟨-, hread⟩ := readSequence_spelled hwrite ts rfl hnil
  rw [List.append_nil] at hread
  rw [Pattern.ofChars?, readChoice_last (by simp) (hread _ (Nat.le_refl _))]

theorem spelled_empty (ts : List Char) : spelled ts .empty = .literal ts := by
  induction ts with
  | nil => rfl
  | cons c ts ih =>
    rw [spelled, List.foldr_cons, ← spelled, ih, join]
    cases ts with
    | nil => rfl
    | cons d ts =>
      have hne : literal (d :: ts) ≠ .empty := by cases ts <;> simp [literal]
      rw [if_neg hne]
      rfl

/-! ### Expressions put together -/

/-- **An expression that is put together from symbols**: texts that are escaped, and expressions in
brackets. -/
inductive Assembled : List Char → List Symbol → Prop where
  | nil : Assembled [] []
  | literal (ts : List Char) {cs : List Char} {xs : List Symbol} (h : Assembled cs xs) :
      Assembled (ts.flatMap escapeRegex ++ cs) (.literal (String.ofList ts) :: xs)
  | pattern {regex : String} {p : Pattern} {cs : List Char} {xs : List Symbol}
      (hp : ofString? regex = some p) (hsymbol : (Symbol.pattern regex).toPattern = p)
      (h : Assembled cs xs) :
      Assembled ('(' :: (regex.toList ++ ')' :: cs)) (.pattern regex :: xs)

variable {xs : List Symbol}

/-- **A text that is put together** from texts of symbols, in their order. -/
def Spells (xs : List Symbol) (text : List Char) : Prop :=
  ∃ pieces, List.Forall₂ (fun x => x.toPattern.Admits) xs pieces ∧ pieces.flatten = text

theorem spells_cons_iff {x : Symbol} : Spells (x :: xs) text ↔
    ∃ front back, text = front ++ back ∧ x.toPattern.Admits front ∧ Spells xs back := by
  constructor
  · rintro ⟨pieces, h, rfl⟩
    obtain ⟨front, pieces, hfront, hrest, rfl⟩ := List.forall₂_cons_left_iff.mp h
    exact ⟨front, pieces.flatten, rfl, hfront, pieces, hrest, rfl⟩
  · rintro ⟨front, _, rfl, hfront, pieces, hrest, rfl⟩
    exact ⟨front :: pieces, .cons hfront hrest, rfl⟩

/-- **What is put together from symbols is read** as a sequence of the same texts. -/
theorem Assembled.readSequence (h : Assembled cs xs) : rounds? cs = none ∧ ∃ p,
    (∀ fuel, 3 * cs.length + 2 ≤ fuel → Pattern.readSequence fuel cs = some (p, [])) ∧
      ∀ text, p.Admits text ↔ Spells xs text := by
  induction h with
  | nil =>
    refine ⟨rfl, .empty, fun fuel hfuel => ?_, fun text => ?_⟩
    · obtain ⟨fuel, rfl⟩ := Nat.exists_eq_add_of_le' (show 1 ≤ fuel by omega)
      exact readSequence_nil
    · rw [admits_empty_iff]
      constructor
      · rintro rfl
        exact ⟨[], .nil, rfl⟩
      · rintro ⟨_, ⟨⟩, rfl⟩
        rfl
  | literal ts _ ih =>
    obtain ⟨hmark, q, hread, hq⟩ := ih
    obtain ⟨hmark, hread⟩ := readSequence_spelled spelling_escapeRegex ts hmark hread
    refine ⟨hmark, spelled ts q, hread, fun text => ?_⟩
    rw [admits_spelled_iff, spells_cons_iff]
    simp only [admits_literalSymbol_iff, hq]
    constructor
    · rintro ⟨rest, rfl, h⟩
      exact ⟨ts, rest, rfl, rfl, h⟩
    · rintro ⟨_, rest, rfl, rfl, h⟩
      exact ⟨rest, rfl, h⟩
  | @pattern regex p cs xs hp hsymbol _ ih =>
    obtain ⟨hmark, q, hread, hq⟩ := ih
    refine ⟨rfl, (join p (q, [])).1, fun fuel hfuel => ?_, fun text => ?_⟩
    · rw [List.length_cons, List.length_append, List.length_cons] at hfuel
      obtain ⟨fuel, rfl⟩ := Nat.exists_eq_add_of_le' (show 2 ≤ fuel by omega)
      have hitem : readItem (fuel + 1) ('(' :: (regex.toList ++ ')' :: cs)) = some (p, cs) :=
        readItem_group hp (by omega)
      rw [readSequence_item (by rfl) hitem (repeated_none hmark), hread (fuel + 1) (by omega)]
      rfl
    · rw [admits_join_iff, spells_cons_iff, hsymbol]
      simp only [hq]

/-- **An expression that is put together from symbols** can be read, and matches the texts that are
put together from texts of the symbols. -/
theorem Assembled.ofChars (h : Assembled cs xs) :
    ∃ p, ofChars? cs = some p ∧ ∀ text, p.Admits text ↔ Spells xs text := by
  obtain ⟨-, p, hread, hp⟩ := h.readSequence
  refine ⟨p, ?_, hp⟩
  rw [ofChars?, readChoice_last (by simp) (hread _ (Nat.le_refl _))]

/-- **Some match is the whole text** iff the text is matched as a whole. -/
theorem matchesAll_iff : p.matchesAll text = true ↔ p.Admits text := by
  rw [matchesAll, run_eq, List.findSome?_isSome_iff]
  constructor
  · rintro ⟨a, ha, h⟩
    split at h
    · rename_i hrest
      have hle := (ways_take p).le ha
      have hlength : text.length ≤ a := List.drop_eq_nil_iff.mp (List.isEmpty_iff.mp hrest)
      rwa [Admits, Nat.le_antisymm hlength hle]
    · cases h
  · intro h
    refine ⟨text.length, h, ?_⟩
    rw [List.drop_length]
    rfl

/-- **A text can be cut** into texts of symbols iff it is put together from such texts. -/
theorem split_isSome_iff :
    (split? (xs.map Symbol.toPattern) text).isSome = true ↔ Spells xs text := by
  rw [Option.isSome_iff_exists]
  constructor
  · rintro ⟨pieces, h⟩
    obtain ⟨hall, hflatten⟩ := admits_of_split h
    exact ⟨pieces, List.forall₂_map_left_iff.mp hall, hflatten⟩
  · rintro ⟨pieces, hall, rfl⟩
    exact exists_split (List.forall₂_map_left_iff.mpr hall)

end Covenant.Pattern
