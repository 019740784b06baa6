import Mathlib
import Covenant.Proofs.Document.Lines

/-!
Places in a text and in its normal form.

* `Text.StandsAt`: a word stands at a position of a text.
* `Document.leftOut`: how many line feeds the normal form leaves out of a beginning of a text.
* `Document.PointsInto`: a position of the normal form leads to a word in the text, as many lines
  below as line feeds are left out before it.
* `Document.pointsInto_of_standsAt`: it does for all that stands in the normal form.
* `Document.standsAt_of_pointsInto`: where nothing is left out, the position is right as it is.
* `Document.Shows`: both in one.
* `Document.write_read`: a text that is read as a document is written in normal form.
-/

namespace Covenant

namespace Text

def StandsAt (cs : List Char) (p : Position) (w : List Char) : Prop :=
  ∃ i, Position.of cs i = p ∧ w <+: cs.drop i

/-- The position after some of a text, from a position on. -/
def Position.afterFrom (p : Position) (cs : List Char) : Position :=
  cs.foldl Position.after p

theorem Position.afterFrom_append (p : Position) (cs ds : List Char) :
    p.afterFrom (cs ++ ds) = (p.afterFrom cs).afterFrom ds :=
  List.foldl_append

end Text

open Text

namespace Document

variable {cs w : List Char} {run i j : Nat}

/-! ### Line feeds that are left out -/

theorem length_squeezeLines_le (run : Nat) (cs : List Char) :
    (squeezeLines run cs).length ≤ cs.length := by
  induction cs generalizing run with
  | nil => exact Nat.le_refl _
  | cons c cs ih =>
    rw [squeezeLines]
    split
    · split
      · exact Nat.succ_le_succ (ih _)
      · exact Nat.le_succ_of_le (ih _)
    · exact Nat.succ_le_succ (ih _)

/-- **Line feeds that are left out** move a position by as many lines and by no column. After two
line feeds, a line has just begun. -/
theorem afterFrom_squeezeLines {p : Position} (hrun : 2 ≤ run → p.column = 1) (n : Nat) :
    Position.afterFrom ⟨p.line + n, p.column⟩ cs =
      ⟨(p.afterFrom (squeezeLines run cs)).line + n + (cs.length - (squeezeLines run cs).length),
        (p.afterFrom (squeezeLines run cs)).column⟩ := by
  induction cs generalizing run p n with
  | nil => simp [squeezeLines, Position.afterFrom]
  | cons c cs ih =>
    have hlength := length_squeezeLines_le
    rw [squeezeLines]
    split
    · rename_i hc
      subst hc
      split
      · have hstep := @ih (run + 1) ⟨p.line + 1, 1⟩ (fun _ => rfl) n
        simp only [Position.afterFrom, List.foldl_cons, Position.after, if_true,
          List.length_cons, Nat.add_sub_add_right] at hstep ⊢
        rw [← hstep, Nat.add_right_comm]
      · rename_i hge
        have hcolumn := hrun (by omega)
        have hstep := ih hrun (n + 1)
        have hle := hlength run cs
        simp only [Position.afterFrom, List.foldl_cons, Position.after, if_true,
          List.length_cons] at hstep ⊢
        rw [hcolumn] at hstep
        rw [← Nat.add_assoc] at hstep
        rw [hstep]
        congr 1
        omega
    · rename_i hc
      have hstep := @ih 0 ⟨p.line, p.column + 1⟩ (by omega) n
      simp only [Position.afterFrom, List.foldl_cons, Position.after, if_neg hc,
        List.length_cons, Nat.add_sub_add_right] at hstep ⊢
      exact hstep

/-- A word without line feeds that begins what is left begins the text. -/
theorem prefix_of_squeezeLines (hw : '\n' ∉ w) (h : w <+: squeezeLines 0 cs) : w <+: cs := by
  induction cs generalizing w with
  | nil => simpa [squeezeLines] using h
  | cons c cs ih =>
    cases w with
    | nil => exact List.nil_prefix
    | cons d w =>
      obtain ⟨hd, hrest⟩ := not_or.mp (mt List.mem_cons.mpr hw)
      rw [squeezeLines] at h
      split at h
      · rename_i hc
        rw [if_pos (by decide), List.cons_prefix_cons] at h
        exact absurd (hc ▸ h.1.symm) hd
      · rw [List.cons_prefix_cons] at h ⊢
        exact ⟨h.1, ih hrest h.2⟩

/-- **What stands in the squeezed text** stands in the text itself, after a beginning that is
squeezed to what is before it. -/
theorem exists_of_drop_squeezeLines (hj : j < (squeezeLines run cs).length) :
    ∃ i c rest run', squeezeLines run (cs.take i) = (squeezeLines run cs).take j ∧
      cs.drop i = c :: rest ∧ (squeezeLines run cs).drop j = c :: squeezeLines run' rest ∧
      (c ≠ '\n' → run' = 0) := by
  induction cs generalizing run j with
  | nil => simp [squeezeLines] at hj
  | cons c cs ih =>
    rw [squeezeLines] at hj ⊢
    split at hj
    · rename_i hc
      rw [if_pos hc]
      split at hj
      · rename_i hrun
        rw [if_pos hrun]
        cases j with
        | zero => exact ⟨0, c, cs, run + 1, rfl, rfl, rfl, absurd hc⟩
        | succ j =>
          obtain ⟨i, d, rest, run', htake, hdrop, hrest, hfeed⟩ := ih (Nat.lt_of_succ_lt_succ hj)
          refine ⟨i + 1, d, rest, run', ?_, hdrop, hrest, hfeed⟩
          rw [List.take_succ_cons, squeezeLines, if_pos hc, if_pos hrun, htake, List.take_succ_cons]
      · rename_i hrun
        rw [if_neg hrun]
        obtain ⟨i, d, rest, run', htake, hdrop, hrest, hfeed⟩ := ih hj
        refine ⟨i + 1, d, rest, run', ?_, hdrop, hrest, hfeed⟩
        rw [List.take_succ_cons, squeezeLines, if_pos hc, if_neg hrun, htake]
    · rename_i hc
      rw [if_neg hc]
      cases j with
      | zero => exact ⟨0, c, cs, 0, rfl, rfl, rfl, fun _ => rfl⟩
      | succ j =>
        obtain ⟨i, d, rest, run', htake, hdrop, hrest, hfeed⟩ := ih (Nat.lt_of_succ_lt_succ hj)
        refine ⟨i + 1, d, rest, run', ?_, hdrop, hrest, hfeed⟩
        rw [List.take_succ_cons, squeezeLines, if_neg hc, htake, List.take_succ_cons]

theorem lt_length_of_prefix_drop (hne : w ≠ []) (h : w <+: cs.drop j) : j < cs.length := by
  by_contra hge
  rw [List.drop_eq_nil_of_le (Nat.le_of_not_lt hge)] at h
  exact hne (List.prefix_nil.mp h)

/-- A word without line feeds, or a single character, that stands in the squeezed text stands in the
text itself. -/
theorem exists_of_prefix_squeezeLines (hw : '\n' ∉ w ∨ w.length = 1) (hne : w ≠ [])
    (h : w <+: (squeezeLines run cs).drop j) :
    ∃ i, squeezeLines run (cs.take i) = (squeezeLines run cs).take j ∧ w <+: cs.drop i := by
  obtain ⟨i, c, rest, run', htake, hdrop, hrest, hfeed⟩ :=
    exists_of_drop_squeezeLines (lt_length_of_prefix_drop hne h)
  refine ⟨i, htake, ?_⟩
  obtain ⟨d, w, rfl⟩ := List.exists_cons_of_ne_nil hne
  rw [hrest] at h
  obtain ⟨rfl, htail⟩ := List.cons_prefix_cons.mp h
  rw [hdrop, List.cons_prefix_cons]
  refine ⟨rfl, ?_⟩
  rcases hw with hplain | hsingle
  · obtain ⟨hd, hplain⟩ := not_or.mp (mt List.mem_cons.mpr hplain)
    rw [hfeed (Ne.symm hd)] at htail
    exact prefix_of_squeezeLines hplain htail
  · rw [List.eq_nil_of_length_eq_zero (Nat.succ.inj hsingle)]
    exact List.nil_prefix

/-- **The line feeds that the normal form leaves out** of a beginning of a text without carriage
returns: those in front, and those after the second in a row. -/
def leftOut (cs : List Char) : Nat :=
  cs.length - (squeezeLines 0 (trimStart (· == '\n') cs)).length

/-! ### Places -/

/-- **A position of the normal form leads to a word in the text**: as many lines below as line feeds
are left out before it, in the same column. Lines end at carriage returns, at line feeds, and at
both in a row. -/
def PointsInto (cs : List Char) (p : Position) (w : List Char) : Prop :=
  ∃ i, w <+: (universalNewlines cs).drop i ∧ Position.of (universalNewlines cs) i =
    ⟨p.line + leftOut ((universalNewlines cs).take i), p.column⟩

/-- A text is its line feeds in front, and what comes after them. -/
theorem exists_trimStart (cs : List Char) :
    ∃ n, cs = List.replicate n '\n' ++ trimStart (· == '\n') cs := by
  induction cs with
  | nil => exact ⟨0, rfl⟩
  | cons c cs ih =>
    by_cases hc : c = '\n'
    · obtain ⟨n, hn⟩ := ih
      refine ⟨n + 1, ?_⟩
      subst hc
      rw [List.replicate_succ, List.cons_append]
      exact congrArg _ hn
    · exact ⟨0, by simp [trimStart, hc]⟩

theorem afterFrom_replicate (p : Position) (hp : p.column = 1) (n : Nat) :
    p.afterFrom (List.replicate n '\n') = ⟨p.line + n, p.column⟩ := by
  induction n generalizing p with
  | zero => rfl
  | succ n ih =>
    rw [List.replicate_succ]
    refine (ih ⟨p.line + 1, 1⟩ rfl).trans ?_
    rw [hp, Nat.add_right_comm, Nat.add_assoc]

/-- A position in a beginning of a text is the same in the text. -/
theorem of_prefix {ds : List Char} (h : ds <+: cs) (hj : j ≤ ds.length) :
    Position.of cs j = Position.of ds j := by
  obtain ⟨rest, rfl⟩ := h
  rw [Position.of, Position.of, List.take_append_of_le_length hj]

theorem trimStart_take (q : Char → Bool) (cs : List Char) (i : Nat) :
    trimStart q ((trimStart q cs).take i) = (trimStart q cs).take i := by
  induction cs with
  | nil => simp [trimStart]
  | cons c cs ih =>
    by_cases hc : q c = true
    · rwa [trimStart, trimStart, List.dropWhile_cons_of_pos hc]
    · have hkeep : trimStart q (c :: cs) = c :: cs := List.dropWhile_cons_of_neg hc
      rw [hkeep]
      cases i with
      | zero => rfl
      | succ i => exact List.dropWhile_cons_of_neg hc

theorem trimStart_replicate (n : Nat) (cs : List Char) :
    trimStart (· == '\n') (List.replicate n '\n' ++ cs) = trimStart (· == '\n') cs := by
  induction n with
  | zero => rfl
  | succ n ih => exact ih

/-- **The position behind a beginning of a text** is that behind its normal form, as many lines
below as line feeds are left out. -/
theorem afterFrom_leftOut {n : Nat} (h : trimStart (· == '\n') cs = cs) {p : Position}
    (hp : Position.afterFrom ⟨1, 1⟩ (squeezeLines 0 cs) = p) :
    Position.afterFrom ⟨1, 1⟩ (List.replicate n '\n' ++ cs) =
      ⟨p.line + leftOut (List.replicate n '\n' ++ cs), p.column⟩ := by
  have hleft : leftOut (List.replicate n '\n' ++ cs) =
      n + (cs.length - (squeezeLines 0 cs).length) := by
    have hle := length_squeezeLines_le 0 cs
    rw [leftOut, trimStart_replicate, h, List.length_append, List.length_replicate]
    omega
  have hmoved := @afterFrom_squeezeLines cs 0 ⟨1, 1⟩ (by omega) n
  rw [Position.afterFrom_append, afterFrom_replicate ⟨1, 1⟩ rfl, hmoved, hp, hleft, Nat.add_assoc]

/-- **What stands in the normal form of a text** is what its position leads to: a word without line
feeds, or a single character. -/
theorem pointsInto_of_standsAt {p : Position} (hw : '\n' ∉ w ∨ w.length = 1) (hne : w ≠ [])
    (h : StandsAt (normalizeChars cs) p w) : PointsInto cs p w := by
  obtain ⟨j, hposition, hbegins⟩ := h
  -- the normal form is a beginning of the squeezed text behind the line feeds in front
  obtain ⟨n, hfront⟩ := exists_trimStart (universalNewlines cs)
  generalize hbody : trimStart (· == '\n') (universalNewlines cs) = body at hfront
  have hnormal : normalizeChars cs <+: squeezeLines 0 body := by
    rw [normalizeChars_eq, hbody]
    exact trimEnd_prefix _ _
  have hj : j < (normalizeChars cs).length := lt_length_of_prefix_drop hne hbegins
  obtain ⟨i, htake, hthere⟩ :=
    exists_of_prefix_squeezeLines hw hne (hbegins.trans (hnormal.drop j))
  have hstart : (universalNewlines cs).take (n + i) = List.replicate n '\n' ++ body.take i := by
    rw [hfront, List.take_append, List.length_replicate, Nat.add_sub_cancel_left,
      List.take_of_length_le (by simp)]
  refine ⟨n + i, ?_, ?_⟩
  · rw [hfront, List.drop_append, List.length_replicate, Nat.add_sub_cancel_left,
      List.drop_of_length_le (by simp)]
    exact hthere
  · have htrimmed : trimStart (· == '\n') (body.take i) = body.take i := by
      rw [← hbody, trimStart_take]
    rw [← of_prefix hnormal hj.le, Position.of, ← htake] at hposition
    rw [Position.of, hstart]
    exact afterFrom_leftOut htrimmed hposition

/-- A text without three line feeds in a row stays as it is. -/
theorem squeezeLines_eq_self (hrun : run ≤ 2)
    (h : ¬ ['\n', '\n', '\n'] <:+: List.replicate run '\n' ++ cs) : squeezeLines run cs = cs := by
  induction cs generalizing run with
  | nil => rfl
  | cons c cs ih =>
    rw [squeezeLines]
    split
    · rename_i hc
      subst hc
      have hlt : run < 2 := by
        by_contra hge
        obtain rfl : run = 2 := by omega
        exact h (List.prefix_append ['\n', '\n', '\n'] cs).isInfix
      have hrow : List.replicate (run + 1) '\n' ++ cs = List.replicate run '\n' ++ '\n' :: cs := by
        rw [List.replicate_succ', List.append_assoc]
        rfl
      rw [if_pos hlt, ih hlt (hrow ▸ h)]
    · refine congrArg _ (ih (Nat.zero_le _) fun hrow => h ?_)
      exact hrow.trans (List.suffix_append_of_suffix (List.suffix_cons c cs)).isInfix

/-- Nothing is left out of a text that has no line feed in front and no three in a row. -/
structure Tight (cs : List Char) : Prop where
  front : (universalNewlines cs).head? ≠ some '\n'
  rows : ¬ ['\n', '\n', '\n'] <:+: universalNewlines cs

/-- **Where nothing is left out**, a position leads to where it is. -/
theorem standsAt_of_pointsInto {p : Position} (htight : Tight cs) (h : PointsInto cs p w) :
    StandsAt (universalNewlines cs) p w := by
  obtain ⟨hfront, hrows⟩ := htight
  obtain ⟨i, hword, hposition⟩ := h
  have hleft : leftOut ((universalNewlines cs).take i) = 0 := by
    have hstart : trimStart (· == '\n') (universalNewlines cs) = universalNewlines cs := by
      cases hcs : universalNewlines cs with
      | nil => rfl
      | cons c rest =>
        rw [hcs] at hfront
        exact List.dropWhile_cons_of_neg (by simpa using hfront)
    have htake := trimStart_take (· == '\n') (universalNewlines cs) i
    rw [hstart] at htake
    rw [leftOut, htake, squeezeLines_eq_self (Nat.zero_le _), Nat.sub_self]
    exact fun hrow => hrows (hrow.trans (List.take_prefix i _).isInfix)
  rw [hleft] at hposition
  exact ⟨i, hposition, hword⟩

/-- **A reported position shows a word of a text**: it leads to the word, and where nothing is left
out of the text the word stands right there. -/
structure Shows (cs : List Char) (p : Position) (w : List Char) : Prop where
  pointsInto : PointsInto cs p w
  standsAt : Tight cs → StandsAt (universalNewlines cs) p w

theorem shows_of_standsAt {p : Position} (hw : '\n' ∉ w ∨ w.length = 1)
    (hne : w ≠ []) (h : StandsAt (normalizeChars cs) p w) : Shows cs p w :=
  have hpoints := pointsInto_of_standsAt hw hne h
  ⟨hpoints, fun htight => standsAt_of_pointsInto htight hpoints⟩

/-! ### Documents -/

theorem splitBlankLines_ne_nil (piece cs : List Char) : splitBlankLines piece cs ≠ [] := by
  induction piece, cs using splitBlankLines.induct with
  | case1 piece cs ih => simp [splitBlankLines]
  | case2 piece c cs h ih =>
    rw [splitBlankLines]
    · exact ih
    · exact h
  | case3 piece => simp [splitBlankLines]

/-- The pieces between blank lines make up the text. -/
theorem intercalate_splitBlankLines (piece cs : List Char) :
    ['\n', '\n'].intercalate (splitBlankLines piece cs) = piece ++ cs := by
  induction piece, cs using splitBlankLines.induct with
  | case1 piece cs ih =>
    obtain ⟨first, rest, hpieces⟩ := List.exists_cons_of_ne_nil (splitBlankLines_ne_nil [] cs)
    rw [hpieces, List.nil_append] at ih
    rw [splitBlankLines, hpieces, List.intercalate_cons_cons, ih]
    simp
  | case2 piece c cs h ih =>
    rw [splitBlankLines]
    · rw [ih, List.append_assoc]
      rfl
    · exact h
  | case3 piece => simp [splitBlankLines]

theorem plainTexts_paragraphs (pieces : List (List Char)) :
    plainTexts (pieces.map fun p => paragraphOf (String.ofList p)) = pieces.map String.ofList := by
  induction pieces with
  | nil => rfl
  | cons p pieces ih =>
    rw [List.map_cons, plainTexts, ih, List.map_cons]
    congr 1

/-- A document of paragraphs has them as its text, with blank lines between them. -/
theorem plainText_paragraphs (pieces : List (List Char)) :
    (ofChildren (pieces.map fun p => paragraphOf (String.ofList p))).plainText =
      "\n\n".intercalate (pieces.map String.ofList) := by
  have hall : areParagraphs (pieces.map fun p => paragraphOf (String.ofList p)) = true := by
    simp [areParagraphs, paragraphOf, kind]
  rw [ofChildren, plainText, plainTexts_paragraphs, if_neg (by decide), if_pos ⟨rfl, hall⟩]

/-- **A text that is read as a document** is written in normal form. -/
theorem write_read (s : String) : (read s).write = normalize s := by
  have hplain : (read s).plainText = normalize s := by
    rw [read, normalize]
    split
    · rename_i hnil
      rw [hnil]
      exact plainText_paragraphs []
    · rw [plainText_paragraphs, ← String.toList_inj, String.toList_intercalate, List.map_map]
      simp only [Function.comp_def, String.toList_ofList, List.map_id']
      exact intercalate_splitBlankLines [] _
  rw [write, hplain]
  refine normalize_of_isNormal ?_
  rw [normalize, String.toList_ofList]
  exact isNormal_normalizeChars _

end Document

end Covenant
