import Mathlib
import Covenant.Text.Basic

/-!
Words and blanks.

* `words_joined`: words with one space between them are split into those words again.
* `strip_lead_joined`: words behind a leading space lose only that space when trimmed.
* `words_strip_ne_nil`: a text that is not empty after trimming has a word.
-/

namespace Covenant.Text

def IsRun (sep : Char → Bool) (w : List Char) : Prop :=
  w ≠ [] ∧ ∀ c ∈ w, sep c = false

section Runs

variable {sep : Char → Bool}

theorem splitRuns_append {w : List Char} (hw : ∀ c ∈ w, sep c = false) (word rest : List Char) :
    splitRuns sep word (w ++ rest) = splitRuns sep (word ++ w) rest := by
  induction w generalizing word with
  | nil => simp
  | cons c w ih =>
    have hc : sep c = false := hw c (by simp)
    rw [List.cons_append, splitRuns, hc]
    simp only [Bool.false_eq_true, if_false]
    rw [ih (fun d hd => hw d (by simp [hd])), List.append_assoc, List.singleton_append]

theorem splitRuns_sep {s : Char} (hs : sep s = true) {word : List Char} (hword : word ≠ [])
    (rest : List Char) :
    splitRuns sep word (s :: rest) = word :: splitRuns sep [] rest := by
  rw [splitRuns, hs]
  simp [hword]

/-- Splitting gives runs only, if the run that is being read is one so far. -/
theorem isRun_of_mem_splitRuns {word cs w : List Char} (hword : ∀ c ∈ word, sep c = false)
    (hw : w ∈ splitRuns sep word cs) : IsRun sep w := by
  induction cs generalizing word with
  | nil =>
    rw [splitRuns] at hw
    split at hw
    · cases hw
    · rename_i hne
      simp only [List.mem_singleton] at hw
      subst hw
      exact ⟨by simpa using hne, hword⟩
  | cons c cs ih =>
    rw [splitRuns] at hw
    split at hw
    · split at hw
      · exact ih (by simp) hw
      · rename_i hne
        rcases List.mem_cons.mp hw with rfl | hw
        · exact ⟨by simpa using hne, hword⟩
        · exact ih (by simp) hw
    · rename_i hc
      refine @ih (word ++ [c]) ?_ hw
      intro d hd
      rcases List.mem_append.mp hd with hd | hd
      · exact hword d hd
      · simp only [List.mem_singleton] at hd
        subst hd
        simpa using hc

/-- **Splitting undoes joining**: runs with one separator between them are split into
those runs. -/
theorem splitRuns_intercalate {s : Char} (hs : sep s = true) {ws : List (List Char)}
    (hws : ∀ w ∈ ws, IsRun sep w) : splitRuns sep [] ([s].intercalate ws) = ws := by
  induction ws with
  | nil => simp [splitRuns]
  | cons w ws ih =>
    obtain ⟨hne, hw⟩ := hws w (by simp)
    have ih := ih fun v hv => hws v (by simp [hv])
    cases ws with
    | nil =>
      have h := splitRuns_append hw [] []
      simp only [List.append_nil, List.nil_append] at h
      rw [List.intercalate_singleton, h, splitRuns]
      simp [hne]
    | cons v vs =>
      rw [List.intercalate_cons_cons, List.append_assoc, splitRuns_append hw [], List.nil_append,
        List.singleton_append, splitRuns_sep hs hne, ih]

/-- A text in which some character is no separator holds a run. -/
theorem splitRuns_ne_nil {word cs : List Char} (h : word ≠ [] ∨ ∃ c ∈ cs, sep c = false) :
    splitRuns sep word cs ≠ [] := by
  induction cs generalizing word with
  | nil =>
    have hword : word ≠ [] := by simpa using h
    simp [splitRuns, hword]
  | cons c cs ih =>
    rw [splitRuns]
    split
    · rename_i hc
      split
      · rename_i hword
        refine ih (Or.inr ?_)
        obtain h | ⟨d, hd, hsep⟩ := h
        · exact absurd (List.isEmpty_iff.mp hword) h
        · rcases List.mem_cons.mp hd with rfl | hd
          · rw [hc] at hsep; cases hsep
          · exact ⟨d, hd, hsep⟩
      · simp
    · exact ih (Or.inl (by simp))

end Runs

/-- Runs with a separator between them hold nothing but that separator and their own
characters. -/
theorem mem_intercalate {α : Type} {s x : α} {ws : List (List α)} (h : x ∈ [s].intercalate ws) :
    x = s ∨ ∃ w ∈ ws, x ∈ w := by
  induction ws with
  | nil => simp at h
  | cons w ws ih =>
    cases ws with
    | nil => exact .inr ⟨w, by simp, by simpa using h⟩
    | cons v vs =>
      rw [List.intercalate_cons_cons] at h
      rcases List.mem_append.mp h with h | h
      · rcases List.mem_append.mp h with h | h
        · exact .inr ⟨w, by simp, h⟩
        · exact .inl (by simpa using h)
      · rcases ih h with rfl | ⟨u, hu, hx⟩
        · exact .inl rfl
        · exact .inr ⟨u, by simp [hu], hx⟩

/-! ### Trimming -/

theorem trimStart_cons_of_neg {p : Char → Bool} {c : Char} (hc : p c = false) (cs : List Char) :
    trimStart p (c :: cs) = c :: cs := by
  simp [trimStart, hc]

theorem trimEnd_append_of_neg {p : Char → Bool} {c : Char} (hc : p c = false) (cs : List Char) :
    trimEnd p (cs ++ [c]) = cs ++ [c] := by
  simp [trimEnd, hc]

theorem exists_append_last {p : Char → Bool} {w : List Char} (hw : IsRun p w) :
    ∃ front c, w = front ++ [c] ∧ p c = false := by
  obtain ⟨hne, hall⟩ := hw
  exact ⟨w.dropLast, w.getLast hne, (List.dropLast_concat_getLast hne).symm,
    hall _ (List.getLast_mem hne)⟩

/-- A list of runs joined by a separator ends with a character of its last run. -/
theorem intercalate_append_last {p : Char → Bool} (s : Char) {ws : List (List Char)}
    (hne : ws ≠ []) (hws : ∀ w ∈ ws, IsRun p w) :
    ∃ front c, [s].intercalate ws = front ++ [c] ∧ p c = false := by
  induction ws with
  | nil => exact absurd rfl hne
  | cons w ws ih =>
    cases ws with
    | nil => simpa using exists_append_last (hws w (by simp))
    | cons v vs =>
      obtain ⟨front, c, hfront, hc⟩ := ih (by simp) fun u hu => hws u (by simp [hu])
      refine ⟨w ++ [s] ++ front, c, ?_, hc⟩
      rw [List.intercalate_cons_cons, hfront]
      simp

theorem intercalate_head {p : Char → Bool} (s : Char) {ws : List (List Char)}
    (hne : ws ≠ []) (hws : ∀ w ∈ ws, IsRun p w) :
    ∃ c rest, [s].intercalate ws = c :: rest ∧ p c = false := by
  cases ws with
  | nil => exact absurd rfl hne
  | cons w ws =>
    obtain ⟨hw, hall⟩ := hws w (by simp)
    cases w with
    | nil => exact absurd rfl hw
    | cons c w =>
      refine ⟨c, w ++ ([s].intercalate ((c :: w) :: ws)).drop (w.length + 1), ?_,
        hall c (by simp)⟩
      cases ws with
      | nil => simp
      | cons v vs => simp [List.intercalate_cons_cons]

/-- **Trimming takes the blanks around joined runs, and nothing else.** -/
theorem trim_lead {p : Char → Bool} {s : Char} (hs : p s = true) {ws : List (List Char)}
    (hne : ws ≠ []) (hws : ∀ w ∈ ws, IsRun p w) :
    trim p (s :: [s].intercalate ws) = [s].intercalate ws := by
  obtain ⟨c, rest, hhead, hc⟩ := intercalate_head s hne hws
  obtain ⟨front, d, hlast, hd⟩ := intercalate_append_last s hne hws
  have hstart : trimStart p (s :: [s].intercalate ws) = [s].intercalate ws := by
    rw [trimStart, List.dropWhile_cons_of_pos hs]
    rw [hhead]
    exact trimStart_cons_of_neg hc rest
  rw [trim, hstart, hlast]
  exact trimEnd_append_of_neg hd front

/-- What is left after trimming starts with a character that is kept. -/
theorem exists_of_trim_ne_nil {p : Char → Bool} {cs : List Char} (h : trim p cs ≠ []) :
    ∃ c ∈ trim p cs, p c = false := by
  have hlast : ∀ {ds : List Char}, trimEnd p ds ≠ [] → ∃ c ∈ trimEnd p ds, p c = false := by
    intro ds hds
    have hrev : ds.reverse.dropWhile p ≠ [] := by
      intro hnil
      exact hds (by simp [trimEnd, hnil])
    refine ⟨(ds.reverse.dropWhile p).head hrev, ?_, ?_⟩
    · simp [trimEnd]
    · simpa using List.head_dropWhile_not p hrev
  exact hlast h

/-! ### Words -/

theorem isBlank_space : isBlank ' ' = true := by
  decide

theorem isBlank_newline : isBlank '\n' = true := by
  decide

theorem isRun_of_mem_words {s w : String} (hw : w ∈ words s) : IsRun isBlank w.toList := by
  obtain ⟨cs, hcs, rfl⟩ := List.mem_map.mp hw
  rw [String.toList_ofList]
  exact isRun_of_mem_splitRuns (by simp) hcs

theorem toList_joined (ws : List String) :
    (" ".intercalate ws).toList = [' '].intercalate (ws.map String.toList) := by
  rw [String.toList_intercalate]
  rfl

/-- **Joined words are split into those words again.** -/
theorem words_joined {ws : List String} (hws : ∀ w ∈ ws, IsRun isBlank w.toList) :
    words (" ".intercalate ws) = ws := by
  have hruns : ∀ w ∈ ws.map String.toList, IsRun isBlank w := by
    intro w hw
    obtain ⟨v, hv, rfl⟩ := List.mem_map.mp hw
    exact hws v hv
  rw [words, toList_joined, splitRuns_intercalate isBlank_space hruns, List.map_map]
  simp

/-- **Words behind a blank are the text that trimming leaves.** -/
theorem strip_lead_joined {ws : List String} (hne : ws ≠ [])
    (hws : ∀ w ∈ ws, IsRun isBlank w.toList) :
    strip (" " ++ " ".intercalate ws) = " ".intercalate ws := by
  have hruns : ∀ w ∈ ws.map String.toList, IsRun isBlank w := by
    intro w hw
    obtain ⟨v, hv, rfl⟩ := List.mem_map.mp hw
    exact hws v hv
  have hlist : (" " ++ " ".intercalate ws).toList
      = ' ' :: [' '].intercalate (ws.map String.toList) := by
    rw [String.toList_append, toList_joined]
    rfl
  rw [strip, hlist, trim_lead isBlank_space (by simpa using hne) hruns, ← toList_joined,
    String.ofList_toList]

theorem joined_ne_empty {ws : List String} (hne : ws ≠ [])
    (hws : ∀ w ∈ ws, IsRun isBlank w.toList) : " ".intercalate ws ≠ "" := by
  intro h
  have hwords := words_joined hws
  rw [h] at hwords
  exact hne hwords.symm

theorem newline_notMem_joined {ws : List String} (hws : ∀ w ∈ ws, IsRun isBlank w.toList) :
    '\n' ∉ (" ".intercalate ws).toList := by
  rw [toList_joined]
  intro h
  rcases mem_intercalate h with h | ⟨w, hw, hx⟩
  · cases h
  · obtain ⟨v, hv, rfl⟩ := List.mem_map.mp hw
    have := (hws v hv).2 _ hx
    rw [isBlank_newline] at this
    cases this

/-- A text that is not empty after trimming has a word. -/
theorem words_strip_ne_nil {s : String} (h : strip s ≠ "") : words (strip s) ≠ [] := by
  have htrim : trim isBlank s.toList ≠ [] := by
    intro hnil
    exact h (by rw [strip, hnil])
  obtain ⟨c, hc, hblank⟩ := exists_of_trim_ne_nil htrim
  rw [words, strip, String.toList_ofList]
  intro hnil
  exact splitRuns_ne_nil (.inr ⟨c, hc, hblank⟩) (List.map_eq_nil_iff.mp hnil)

end Covenant.Text
