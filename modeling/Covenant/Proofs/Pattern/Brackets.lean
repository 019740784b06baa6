import Covenant.Proofs.Pattern.Notation

/-!
Regular expressions in brackets.

* `read_closed`: what is read up to the end of a text is read in the same way up to a closing
  bracket.
* `readItem_group`: a whole expression in brackets is an item.
-/

namespace Covenant.Pattern

/-- What is read, with a closing bracket behind what is left. -/
def closed {α : Type} (tail : List Char) (r : α × List Char) : α × List Char :=
  (r.1, r.2 ++ ')' :: tail)

/-- **A reader that reads a text with a closing bracket behind it as it reads the text.** The other
reader is the same one, with more steps if it needs them. -/
def Closes {α : Type} (tail : List Char) (read read' : List Char → Option (α × List Char)) : Prop :=
  ∀ ⦃cs r⦄, read cs = some r → read' (cs ++ ')' :: tail) = some (closed tail r)

variable {tail cs : List Char}

/-- What a text with a bracket behind it begins with, it begins with by itself. -/
theorem exists_of_closed_eq {rest rest' : List Char} {d : Char} (hd : d ≠ ')')
    (h : rest ++ ')' :: tail = d :: rest') :
    ∃ rest₀, rest = d :: rest₀ ∧ rest' = rest₀ ++ ')' :: tail := by
  cases rest with
  | nil => exact absurd (List.cons.inj h).1.symm hd
  | cons c rest =>
    obtain ⟨rfl, rfl⟩ := List.cons.inj h
    exact ⟨rest, rfl, rfl⟩

/-- What a text does not begin with, it does not begin with in front of a bracket. -/
theorem closed_ne {d : Char} (hd : d ≠ ')') (h : ∀ rest, cs = d :: rest → False) :
    ∀ rest, cs ++ ')' :: tail = d :: rest → False := by
  intro rest heq
  obtain ⟨rest, hcs, -⟩ := exists_of_closed_eq hd heq
  exact h rest hcs

/-- What is no escape, neither a whole one nor a part of one, does not begin with a backslash. -/
theorem ne_backslash {c : Char} (hescape : ∀ d rest, c = '\\' → cs = d :: rest → False)
    (hend : c = '\\' → cs = [] → False) : c ≠ '\\' := by
  intro h
  cases cs with
  | nil => exact hend h rfl
  | cons d cs => exact hescape d cs h rfl

/-! ### Escapes -/

theorem length_mapM {α β : Type} {f : α → Option β} {as : List α} {bs : List β}
    (h : as.mapM f = some bs) : bs.length = as.length := by
  induction as generalizing bs with
  | nil =>
    cases h
    rfl
  | cons a as ih =>
    rw [List.mapM_cons] at h
    obtain ⟨b, -, h⟩ := Option.bind_eq_some_iff.mp h
    obtain ⟨bs, hbs, h⟩ := Option.bind_eq_some_iff.mp h
    cases h
    rw [List.length_cons, ih hbs, List.length_cons]

theorem hexEscape_closed (width : Nat) : Closes tail (hexEscape? width) (hexEscape? width) := by
  intro cs r h
  unfold hexEscape? at h ⊢
  obtain ⟨digits, hdigits, h⟩ := Option.bind_eq_some_iff.mp h
  split at h
  · cases h
  · rename_i hwidth
    have hle : width ≤ cs.length := by
      rw [length_mapM hdigits, List.length_take] at hwidth
      omega
    rw [List.take_append_of_le_length hle, hdigits]
    simp only [Option.bind_eq_bind, Option.bind_some, if_neg hwidth]
    simp only at h
    split at h
    · rename_i hcode
      cases h
      rw [if_pos hcode, List.drop_append_of_le_length hle]
      rfl
    · cases h

theorem octalEscape_closed : octalEscape (cs ++ ')' :: tail) = closed tail (octalEscape cs) := by
  have hdigits : ((cs ++ ')' :: tail).take 2).takeWhile (fun c => '0' ≤ c && c ≤ '7') =
      (cs.take 2).takeWhile fun c => '0' ≤ c && c ≤ '7' := by
    rcases cs with _ | ⟨c, _ | ⟨d, cs⟩⟩
    · rfl
    · have hstop : ('0' ≤ ')' && ')' ≤ '7') = false := by decide
      simp only [List.cons_append, List.nil_append, List.take_succ_cons, List.take_zero,
        List.takeWhile_cons, hstop, List.takeWhile_nil]
      rfl
    · rfl
  have hle : ((cs.take 2).takeWhile fun c => '0' ≤ c && c ≤ '7').length ≤ cs.length :=
    ((List.takeWhile_prefix _).trans (List.take_prefix _ _)).length_le
  simp only [octalEscape, hdigits, List.drop_append_of_le_length hle]
  rfl

theorem charEscape_closed : Closes tail charEscape? charEscape? := by
  intro cs r h
  unfold charEscape? at h
  split at h
  · cases h
  · exact hexEscape_closed 2 h
  · exact hexEscape_closed 4 h
  · exact hexEscape_closed 8 h
  · cases h
    exact congrArg some octalEscape_closed
  · rw [List.cons_append, charEscape?]
    · split at h
      · cases h
        rfl
      · split at h
        · cases h
        · rename_i hplain
          cases h
          simp only [if_neg hplain]
          rfl
    all_goals assumption

/-! ### Classes -/

theorem classItem_closed : Closes tail classItem? classItem? := by
  intro cs r h
  unfold classItem? at h
  split at h
  · cases h
  · cases h
    rfl
  · rename_i hb
    rw [List.cons_append, List.cons_append, classItem?]
    · split at h
      · cases h
        rfl
      · obtain ⟨s, hs, rfl⟩ := Option.map_eq_some_iff.mp h
        rw [← List.cons_append, charEscape_closed hs]
        rfl
    · exact hb
  · cases h
  · rename_i c cs _ hc hnil
    cases h
    have hne : c ≠ '\\' := ne_backslash hc hnil
    rw [List.cons_append, classItem?]
    · rfl
    · exact fun _ h => absurd h hne
    · exact fun _ _ h => absurd h hne
    · exact fun h => absurd h hne

theorem classParts_closed {first : Bool} {fuel fuel' : Nat} (hfuel : fuel ≤ fuel') :
    Closes tail (classParts first fuel) (classParts first fuel') := by
  intro cs r h
  induction fuel generalizing first fuel' cs r with
  | zero => cases h
  | succ fuel ih =>
    obtain ⟨fuel', rfl⟩ := Nat.exists_eq_add_one_of_ne_zero (Nat.ne_zero_of_lt hfuel)
    have hfuel := Nat.le_of_succ_le_succ hfuel
    unfold classParts at h
    split at h
    · cases h
      rfl
    · rename_i hfirst
      obtain ⟨⟨item, rest⟩, hitem, h⟩ := Option.bind_eq_some_iff.mp h
      rw [classParts]
      · rw [classItem_closed hitem]
        simp only [Option.bind_eq_bind, Option.bind_some, closed] at h ⊢
        split at h
        · cases h
          rfl
        · -- a range
          rename_i rest hrest
          obtain ⟨⟨stop, rest'⟩, hstop, h⟩ := Option.bind_eq_some_iff.mp h
          rw [List.cons_append]
          split
          · rename_i heq
            exact absurd (List.cons.inj heq).2 (closed_ne (by decide) hrest _)
          · rename_i heq
            rw [← (List.cons.inj heq).2, classItem_closed hstop]
            cases item with
            | inr part => cases h
            | inl low =>
              cases stop with
              | inr part => cases h
              | inl high =>
                simp only [closed, Option.bind_some] at h ⊢
                split at h
                · cases h
                · rename_i hle
                  obtain ⟨parts, hparts, h⟩ := Option.bind_eq_some_iff.mp h
                  cases h
                  rw [if_neg hle, ih hfuel hparts]
                  rfl
          · rename_i hother
            exact absurd rfl (hother _)
        · -- a single place
          rename_i hrange hone
          obtain ⟨parts, hparts, h⟩ := Option.bind_eq_some_iff.mp h
          cases h
          split
          · rename_i heq
            exact absurd heq (closed_ne (by decide) hone _)
          · rename_i heq
            exact absurd heq (closed_ne (by decide) hone _)
          · rw [ih hfuel hparts]
            rfl
      · exact fun rest' hnot => closed_ne (by decide) (fun rest => hfirst rest hnot) rest'

/-! ### Repetitions -/

theorem braces_closed : braces? (cs ++ ')' :: tail) = (braces? cs).map (closed tail) := by
  have hlow : ∀ cs : List Char,
      (cs ++ ')' :: tail).takeWhile Char.isDigit = cs.takeWhile Char.isDigit ∧
        (cs ++ ')' :: tail).dropWhile Char.isDigit = cs.dropWhile Char.isDigit ++ ')' :: tail := by
    intro cs
    induction cs with
    | nil => exact ⟨rfl, rfl⟩
    | cons c cs ih =>
      rw [List.cons_append, List.takeWhile_cons, List.takeWhile_cons, List.dropWhile_cons,
        List.dropWhile_cons]
      split
      · exact ⟨congrArg _ ih.1, ih.2⟩
      · exact ⟨rfl, rfl⟩
  unfold braces?
  simp only [hlow]
  generalize cs.dropWhile Char.isDigit = rest
  split
  · rename_i heq
    obtain ⟨rest₀, rfl, rfl⟩ := exists_of_closed_eq (by decide) heq
    simp only
    split <;> rfl
  · rename_i heq
    obtain ⟨rest₀, rfl, rfl⟩ := exists_of_closed_eq (by decide) heq
    simp only [hlow]
    generalize rest₀.dropWhile Char.isDigit = rest
    split
    · rename_i heq
      obtain ⟨rest₁, rfl, rfl⟩ := exists_of_closed_eq (by decide) heq
      rfl
    · rename_i hstop
      split
      · exact absurd rfl (hstop _)
      · rfl
  · rename_i hclose hcomma
    split
    · exact absurd rfl (hclose _)
    · exact absurd rfl (hcomma _)
    · rfl

theorem rounds_closed : rounds? (cs ++ ')' :: tail) = (rounds? cs).map (closed tail) := by
  unfold rounds?
  split
  · rename_i heq
    obtain ⟨rest, rfl, rfl⟩ := exists_of_closed_eq (by decide) heq
    rfl
  · rename_i heq
    obtain ⟨rest, rfl, rfl⟩ := exists_of_closed_eq (by decide) heq
    rfl
  · rename_i heq
    obtain ⟨rest, rfl, rfl⟩ := exists_of_closed_eq (by decide) heq
    rfl
  · rename_i heq
    obtain ⟨rest, rfl, rfl⟩ := exists_of_closed_eq (by decide) heq
    exact braces_closed
  · rename_i hstar hplus hoptional hbraces
    split
    · exact absurd rfl (hstar _)
    · exact absurd rfl (hplus _)
    · exact absurd rfl (hoptional _)
    · exact absurd rfl (hbraces _)
    · rfl

theorem repeated_closed (p : Pattern) : Closes tail (repeated? p) (repeated? p) := by
  intro cs r h
  cases hrounds : rounds? cs with
  | none =>
    rw [repeated_none hrounds, Option.some.injEq] at h
    rw [repeated_none (by rw [rounds_closed, hrounds]; rfl), ← h]
    rfl
  | some marked =>
    obtain ⟨⟨least, most⟩, rest⟩ := marked
    obtain ⟨isLazy, rest', rfl, hrest⟩ : ∃ (isLazy : Bool) (rest' : List Char),
        rest = (if isLazy then '?' :: rest' else rest') ∧
          (isLazy = false → ∀ rest₀, rest' ≠ '?' :: rest₀) := by
      by_cases hmark : ∃ rest', rest = '?' :: rest'
      · obtain ⟨rest', rfl⟩ := hmark
        exact ⟨true, rest', rfl, nofun⟩
      · exact ⟨false, rest, rfl, fun _ rest' heq => hmark ⟨rest', heq⟩⟩
    have hclosed : rounds? (cs ++ ')' :: tail) = some ((least, most),
        if isLazy then '?' :: (rest' ++ ')' :: tail) else rest' ++ ')' :: tail) := by
      rw [rounds_closed, hrounds]
      cases isLazy <;> rfl
    have hrest' : isLazy = false → ∀ rest₀, rest' ++ ')' :: tail ≠ '?' :: rest₀ :=
      fun hlazy => closed_ne (by decide) (hrest hlazy)
    rw [repeated_marked isLazy hrounds hrest] at h
    rw [repeated_marked isLazy hclosed hrest', rounds_closed, Option.isSome_map]
    split at h
    · cases h
    · rename_i hmarks
      cases h
      rw [if_neg hmarks]
      rfl

/-! ### Expressions -/

theorem groupStart_closed {rest : List Char} (h : groupStart? cs = some rest) :
    groupStart? (cs ++ ')' :: tail) = some (rest ++ ')' :: tail) := by
  unfold groupStart? at h
  split at h
  · cases h
    rfl
  · cases h
  · rename_i hgroup hmark
    cases h
    have hmark : ∀ rest, cs ++ ')' :: tail = '?' :: rest → False :=
      closed_ne (by decide) hmark
    rw [groupStart?]
    · exact fun rest => hmark _
    · exact hmark

section

variable {fuel fuel' : Nat}

theorem readChoice_closed (hchoice : Closes tail (readChoice fuel) (readChoice fuel'))
    (hsequence : Closes tail (readSequence fuel) (readSequence fuel')) :
    Closes tail (readChoice (fuel + 1)) (readChoice (fuel' + 1)) := by
  intro cs r h
  obtain ⟨⟨p, rest⟩, hp, h⟩ := Option.bind_eq_some_iff.mp h
  rw [readChoice, hsequence hp]
  simp only [Option.bind_eq_bind, Option.bind_some, closed] at h ⊢
  split at h
  · obtain ⟨q, hq, h⟩ := Option.bind_eq_some_iff.mp h
    cases h
    rw [List.cons_append]
    simp only [hchoice hq]
    rfl
  · rename_i hbar
    cases h
    split
    · rename_i heq
      obtain ⟨rest, rfl, -⟩ := exists_of_closed_eq (by decide) heq
      exact absurd rfl (hbar _)
    · rfl

theorem readSequence_closed (hsequence : Closes tail (readSequence fuel) (readSequence fuel'))
    (hitem : Closes tail (readItem fuel) (readItem fuel')) :
    Closes tail (readSequence (fuel + 1)) (readSequence (fuel' + 1)) := by
  intro cs r h
  unfold readSequence at h
  split at h
  · cases h
    rw [List.nil_append, readSequence]
    rfl
  · cases h
    rw [List.cons_append, readSequence]
    rfl
  · cases h
    rw [List.cons_append, readSequence]
    rfl
  · rename_i hnil hbar hbracket
    obtain ⟨⟨p, rest⟩, hp, h⟩ := Option.bind_eq_some_iff.mp h
    obtain ⟨⟨q, rest'⟩, hq, h⟩ := Option.bind_eq_some_iff.mp h
    obtain ⟨⟨p', rest''⟩, hp', h⟩ := Option.bind_eq_some_iff.mp h
    cases h
    rw [readSequence, hitem hp]
    · simp only [Option.bind_eq_bind, Option.bind_some, closed, repeated_closed p hq,
        hsequence hp']
      rfl
    · intro heq
      exact hnil (List.append_eq_nil_iff.mp heq).1
    · exact closed_ne (by decide) hbar
    · intro rest heq
      obtain ⟨c, cs, rfl⟩ := List.exists_cons_of_ne_nil hnil
      exact hbracket cs (by rw [(List.cons.inj heq).1])

theorem readItem_closed (hchoice : Closes tail (readChoice fuel) (readChoice fuel')) :
    Closes tail (readItem (fuel + 1)) (readItem (fuel' + 1)) := by
  intro cs r h
  unfold readItem at h
  split at h
  · cases h
  · cases h
    rw [List.cons_append, readItem]
    rfl
  · obtain ⟨cs, hstart, h⟩ := Option.bind_eq_some_iff.mp h
    obtain ⟨⟨p, rest⟩, hp, h⟩ := Option.bind_eq_some_iff.mp h
    rw [List.cons_append, readItem, groupStart_closed hstart]
    simp only [Option.bind_eq_bind, Option.bind_some, hchoice hp, closed] at h ⊢
    split at h
    · cases h
      rfl
    · cases h
  · obtain ⟨parts, hparts, rfl⟩ := Option.map_eq_some_iff.mp h
    rw [List.cons_append, List.cons_append, readItem,
      classParts_closed (Nat.succ_le_succ (by simp)) hparts]
    rfl
  · rename_i hcaret
    obtain ⟨parts, hparts, rfl⟩ := Option.map_eq_some_iff.mp h
    rw [List.cons_append, readItem, classParts_closed (Nat.succ_le_succ (by simp)) hparts]
    · rfl
    · exact closed_ne (by decide) hcaret
  · rw [List.cons_append, List.cons_append, readItem]
    split at h
    · cases h
      rfl
    · obtain ⟨s, hs, rfl⟩ := Option.map_eq_some_iff.mp h
      rw [← List.cons_append, charEscape_closed hs]
      rfl
  · cases h
  · cases h
  · cases h
  · cases h
  · cases h
  · cases h
  · rw [List.cons_append, readItem, braces_closed, Option.isSome_map]
    split at h
    · cases h
    · rename_i hbraces
      cases h
      rw [if_neg hbraces]
      rfl
  · rename_i c cs _ _ _ hopen hescape hend _ _ _ _ _ _
    cases h
    have hne : c ≠ '\\' := ne_backslash hescape hend
    rw [List.cons_append, readItem]
    · rfl
    · assumption
    · assumption
    · exact fun _ h => absurd h hopen
    · exact hopen
    · exact fun _ _ h => absurd h hne
    · exact fun h => absurd h hne
    all_goals assumption

/-- **What is read up to the end of a text is read up to a closing bracket**, by as many steps. -/
theorem read_closed (hfuel : fuel ≤ fuel') : Closes tail (readChoice fuel) (readChoice fuel') ∧
    Closes tail (readSequence fuel) (readSequence fuel') ∧
      Closes tail (readItem fuel) (readItem fuel') := by
  induction fuel generalizing fuel' with
  | zero =>
    refine ⟨?_, ?_, ?_⟩
    all_goals
      intro cs r h
      cases h
  | succ fuel ih =>
    obtain ⟨fuel', rfl⟩ := Nat.exists_eq_add_one_of_ne_zero (Nat.ne_zero_of_lt hfuel)
    obtain ⟨hchoice, hsequence, hitem⟩ := ih (Nat.le_of_succ_le_succ hfuel)
    exact ⟨readChoice_closed hchoice hsequence, readSequence_closed hsequence hitem,
      readItem_closed hchoice⟩

end

/-- **A whole expression in brackets is an item.** -/
theorem readItem_group {p : Pattern} (h : ofChars? cs = some p) {fuel : Nat}
    (hfuel : 3 * cs.length + 3 ≤ fuel) :
    readItem (fuel + 1) ('(' :: (cs ++ ')' :: tail)) = some (p, tail) := by
  obtain ⟨hread, hmark⟩ : readChoice (3 * cs.length + 3) cs = some (p, []) ∧
      ∀ rest, cs ≠ '?' :: rest := by
    unfold ofChars? at h
    split at h
    · rename_i hread
      cases h
      refine ⟨hread, ?_⟩
      rintro rest rfl
      cases hread
    · cases h
  have hstart : groupStart? (cs ++ ')' :: tail) = some (cs ++ ')' :: tail) := by
    apply groupStart_closed
    rw [groupStart?]
    · exact fun rest => hmark _
    · exact hmark
  have hclosed : readChoice fuel (cs ++ ')' :: tail) = some (closed tail (p, [])) :=
    (read_closed hfuel).1 hread
  rw [readItem, hstart]
  simp only [Option.bind_eq_bind, Option.bind_some, hclosed]
  rfl

end Covenant.Pattern
