import Covenant.Document.Basic

/-!
Texts in normal form.

* `LineState.read`: where a text stands after some of it was read, as long as it has no carriage
  returns, no line feed in front and no three in a row.
* `Document.normalize_of_isNormal`: a text that is read as a whole, and does not end in a line
  feed, is its own normal form.
* `Document.isNormal_normalizeChars`: every normal form is such a text.
-/

namespace Covenant

/-- **Where a text stands**: in front of its first character, after a character that is no line
feed, after one line feed, or after two in a row. -/
inductive LineState where
  | start
  | inside
  | feed
  | blank
deriving DecidableEq, Repr

namespace LineState

def after (a : LineState) (c : Char) : Option LineState :=
  if c = '\r' then none
  else if c = '\n' then
    match a with
    | .start | .blank => none
    | .inside => some .feed
    | .feed => some .blank
  else some .inside

def read (a : LineState) (cs : List Char) : Option LineState :=
  cs.foldlM after a

def feeds : LineState → Nat
  | .start | .inside => 0
  | .feed => 1
  | .blank => 2

variable {a b : LineState} {c : Char} {cs cs' : List Char}

theorem read_cons : a.read (c :: cs) = (a.after c).bind (·.read cs) := rfl

theorem read_append : a.read (cs ++ cs') = (a.read cs).bind (·.read cs') := by
  induction cs generalizing a with
  | nil => rfl
  | cons c cs ih =>
    rw [List.cons_append, read_cons, read_cons, Option.bind_assoc]
    exact Option.bind_congr fun b _ => ih

/-- A character that breaks no line. -/
theorem after_inside (hfeed : c ≠ '\n') (hreturn : c ≠ '\r') : a.after c = some .inside := by
  unfold after
  rw [if_neg hreturn, if_neg hfeed]

/-- **A text without line breaks.** -/
theorem read_inside (hne : cs ≠ []) (hfeed : '\n' ∉ cs) (hreturn : '\r' ∉ cs) :
    a.read cs = some .inside := by
  induction cs generalizing a with
  | nil => exact absurd rfl hne
  | cons c cs ih =>
    rw [read_cons, after_inside (List.ne_of_not_mem_cons hfeed).symm
      (List.ne_of_not_mem_cons hreturn).symm, Option.bind_some]
    cases cs with
    | nil => rfl
    | cons d cs =>
      exact ih (List.cons_ne_nil d cs) (List.not_mem_of_not_mem_cons hfeed)
        (List.not_mem_of_not_mem_cons hreturn)

/-- What is read has no carriage returns. -/
theorem not_return_of_read (h : a.read cs = some b) : '\r' ∉ cs := by
  induction cs generalizing a with
  | nil => simp
  | cons c cs ih =>
    rw [read_cons] at h
    obtain ⟨a', ha, h⟩ := Option.bind_eq_some_iff.mp h
    refine List.not_mem_cons_of_ne_of_not_mem ?_ (ih h)
    rintro rfl
    cases ha

/-- What is read has no three line feeds in a row. -/
theorem squeezeLines_of_read (h : a.read cs = some b) :
    Document.squeezeLines a.feeds cs = cs := by
  induction cs generalizing a with
  | nil => rfl
  | cons c cs ih =>
    rw [read_cons] at h
    obtain ⟨a', ha, h⟩ := Option.bind_eq_some_iff.mp h
    have hrest := ih h
    unfold after at ha
    split at ha
    · cases ha
    · rw [Document.squeezeLines]
      split at ha
      · rename_i hfeed
        rw [if_pos hfeed]
        cases a <;> cases ha
        · exact congrArg (c :: ·) hrest
        · exact congrArg (c :: ·) hrest
      · rename_i hfeed
        cases ha
        rw [if_neg hfeed]
        exact congrArg (c :: ·) hrest

/-- What is left of three line feeds in a row is read. -/
theorem exists_read_squeezeLines (ha : a ≠ .start) (hcs : '\r' ∉ cs) :
    ∃ b, a.read (Document.squeezeLines a.feeds cs) = some b := by
  induction cs generalizing a with
  | nil => exact ⟨a, rfl⟩
  | cons c cs ih =>
    obtain ⟨hc, hrest⟩ := not_or.mp (mt List.mem_cons.mpr hcs)
    rw [Document.squeezeLines]
    split
    · rename_i hfeed
      subst hfeed
      cases a with
      | start => exact absurd rfl ha
      | inside => exact ih (a := .feed) (by decide) hrest
      | feed => exact ih (a := .blank) (by decide) hrest
      | blank => exact ih (a := .blank) (by decide) hrest
    · rename_i hfeed
      rw [read_cons, after_inside hfeed (Ne.symm hc)]
      exact ih (a := .inside) (by decide) hrest

/-- A text that does not end in a line feed is read up to its start or up to within a line. -/
theorem inside_of_getLast (h : a.read cs = some b) (hlast : cs.getLast? ≠ some '\n') :
    (cs = [] ∧ b = a) ∨ b = .inside := by
  rcases List.eq_nil_or_concat cs with rfl | ⟨ds, c, rfl⟩
  · exact .inl ⟨rfl, (Option.some.inj h).symm⟩
  · rw [List.concat_eq_append, read_append] at h
    obtain ⟨a', -, h⟩ := Option.bind_eq_some_iff.mp h
    have hreturn : c ≠ '\r' := fun hc => not_return_of_read h (by simp [hc])
    rw [read_cons, after_inside (by simpa using hlast) hreturn] at h
    exact .inr (Option.some.inj h).symm

/-- Nothing is read only where the text stands at its start. -/
theorem head_of_read (h : read .start cs = some b) : cs.head? ≠ some '\n' := by
  cases cs with
  | nil => simp
  | cons c cs =>
    rintro hc
    cases hc
    cases h

theorem getLast_of_read (h : a.read cs = some b) (hb : b = .start ∨ b = .inside) :
    cs.getLast? ≠ some '\n' := by
  intro hlast
  obtain ⟨ds, rfl⟩ := List.getLast?_eq_some_iff.mp hlast
  rw [read_append] at h
  obtain ⟨a', -, h⟩ := Option.bind_eq_some_iff.mp h
  cases a' <;> cases h <;> simp at hb

end LineState

namespace Document

/-- **A text in normal form**: it is read as a whole, and does not end in a line feed. -/
def IsNormal (cs : List Char) : Prop :=
  LineState.read .start cs = some .start ∨ LineState.read .start cs = some .inside

variable {cs : List Char}

theorem universalNewlines_of_not_mem (h : '\r' ∉ cs) : Text.universalNewlines cs = cs := by
  induction cs with
  | nil => rfl
  | cons c cs ih =>
    have hc := List.ne_of_not_mem_cons h
    rw [Text.universalNewlines]
    · rw [if_neg hc.symm, ih (List.not_mem_of_not_mem_cons h)]
    · rintro _ rfl
      exact absurd rfl hc

theorem trim_of_ends {p : Char → Bool} (hhead : ∀ c ∈ cs.head?, p c = false)
    (hlast : ∀ c ∈ cs.getLast?, p c = false) : Text.trim p cs = cs := by
  have hstart : ∀ ds : List Char, (∀ c ∈ ds.head?, p c = false) → ds.dropWhile p = ds := by
    intro ds hds
    cases ds with
    | nil => rfl
    | cons d ds => rw [List.dropWhile_cons_of_neg (by simp [hds d rfl])]
  rw [Text.trim, Text.trimStart, hstart cs hhead, Text.trimEnd, hstart _ (by simpa using hlast),
    List.reverse_reverse]

/-- **A text in normal form is its own normal form.** -/
theorem normalizeChars_of_isNormal (h : IsNormal cs) : normalizeChars cs = cs := by
  obtain ⟨b, hread, hb⟩ : ∃ b, LineState.read .start cs = some b ∧ (b = .start ∨ b = .inside) :=
    h.elim (fun h => ⟨_, h, .inl rfl⟩) fun h => ⟨_, h, .inr rfl⟩
  rw [normalizeChars, universalNewlines_of_not_mem (LineState.not_return_of_read hread)]
  change Text.trim _ (squeezeLines LineState.start.feeds cs) = cs
  rw [LineState.squeezeLines_of_read hread]
  refine trim_of_ends (fun c hc => ?_) fun c hc => ?_
  · refine beq_false_of_ne ?_
    rintro rfl
    exact LineState.head_of_read hread hc
  · refine beq_false_of_ne ?_
    rintro rfl
    exact LineState.getLast_of_read hread hb hc

theorem not_mem_universalNewlines (cs : List Char) : '\r' ∉ Text.universalNewlines cs := by
  induction cs using Text.universalNewlines.induct with
  | case1 => simp [Text.universalNewlines]
  | case2 cs ih => simpa [Text.universalNewlines] using ih
  | case3 c cs hpair ih =>
    rw [Text.universalNewlines]
    · refine List.not_mem_cons_of_ne_of_not_mem ?_ ih
      split
      · decide
      · exact Ne.symm ‹_›
    · exact hpair

/-- Line feeds in front are left out before or after squeezing. -/
theorem trimStart_squeezeLines (run : Nat) (cs : List Char) :
    Text.trimStart (· == '\n') (squeezeLines run cs) = squeezeLines 0 (Text.trimStart (· == '\n') cs) := by
  induction cs generalizing run with
  | nil => rfl
  | cons c cs ih =>
    rw [squeezeLines]
    split
    · rename_i hc
      subst hc
      have hskip : Text.trimStart (· == '\n') ('\n' :: cs) = Text.trimStart (· == '\n') cs := rfl
      rw [hskip]
      split
      · exact ih _
      · exact ih _
    · rename_i hc
      simp [Text.trimStart, hc, squeezeLines]

theorem trimEnd_prefix (q : Char → Bool) (cs : List Char) : Text.trimEnd q cs <+: cs := by
  rw [Text.trimEnd, ← List.reverse_suffix, List.reverse_reverse]
  exact List.dropWhile_suffix q

/-- The text without the line feeds in front, squeezed and without those at the end. -/
theorem normalizeChars_eq (cs : List Char) : normalizeChars cs = Text.trimEnd (· == '\n')
    (squeezeLines 0 (Text.trimStart (· == '\n') (Text.universalNewlines cs))) := by
  rw [normalizeChars, Text.trim, trimStart_squeezeLines]

theorem exists_read_trimStart (cs : List Char) : ∃ b, LineState.read .start
    (squeezeLines 0 (Text.trimStart (· == '\n') (Text.universalNewlines cs))) = some b := by
  have hreturn : '\r' ∉ Text.trimStart (· == '\n') (Text.universalNewlines cs) := fun h =>
    not_mem_universalNewlines cs ((List.dropWhile_suffix _).subset h)
  have hhead := List.head?_dropWhile_not (· == '\n') (Text.universalNewlines cs)
  unfold Text.trimStart at hreturn ⊢
  cases hbody : (Text.universalNewlines cs).dropWhile (· == '\n') with
  | nil => exact ⟨.start, rfl⟩
  | cons c rest =>
    rw [hbody] at hhead hreturn
    have hfeed : c ≠ '\n' := by simpa using hhead
    obtain ⟨hc, hrest⟩ := not_or.mp (mt List.mem_cons.mpr hreturn)
    rw [squeezeLines, if_neg hfeed, LineState.read_cons, LineState.after_inside hfeed (Ne.symm hc)]
    exact LineState.exists_read_squeezeLines (a := .inside) (by decide) hrest

theorem getLast_normalizeChars (cs : List Char) : (normalizeChars cs).getLast? ≠ some '\n' := by
  rw [normalizeChars_eq, Text.trimEnd, List.getLast?_reverse]
  intro h
  have hnot := List.head?_dropWhile_not (· == '\n')
    (squeezeLines 0 (Text.trimStart (· == '\n') (Text.universalNewlines cs))).reverse
  rw [h] at hnot
  cases hnot

/-- **The normal form of a text is in normal form.** -/
theorem isNormal_normalizeChars (cs : List Char) : IsNormal (normalizeChars cs) := by
  obtain ⟨b, hread⟩ := exists_read_trimStart cs
  obtain ⟨rest, hrest⟩ := trimEnd_prefix (· == '\n')
    (squeezeLines 0 (Text.trimStart (· == '\n') (Text.universalNewlines cs)))
  rw [← hrest, ← normalizeChars_eq, LineState.read_append] at hread
  obtain ⟨b', hread, -⟩ := Option.bind_eq_some_iff.mp hread
  rcases LineState.inside_of_getLast hread (getLast_normalizeChars cs) with ⟨-, rfl⟩ | rfl
  · exact .inl hread
  · exact .inr hread

theorem normalize_of_isNormal {s : String} (h : IsNormal s.toList) : normalize s = s := by
  rw [normalize, normalizeChars_of_isNormal h, String.ofList_toList]

end Document

end Covenant
