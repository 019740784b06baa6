import Mathlib
import Covenant.Proofs.Document.Places

/-!
How texts are divided into paragraphs.

* `Document.Tidy`: a text without carriage returns, without three line feeds in a row and without
  line feeds at its ends. `Document.isNormal_iff_tidy`: these are the texts in normal form.
* `Document.written_normalizeChars`: a normal form changes line breaks only.
* `Document.IsParagraph`: a text that can stand between blank lines.
* `Document.isParagraph_of_mem_splitBlankLines`: a tidy text is divided into such texts.
* `Document.splitBlankLines_intercalate`: such texts with blank lines between them are divided
  into what they were.
* `Document.exists_read_iff`: the documents that are read from texts.
* `Document.normal_form_read`: what a text and its document tell of its normal form.
-/

namespace Covenant

open Text

namespace Document

variable {cs p piece : List Char}

/-! ### Tidy texts -/

/-- **A tidy text** has no carriage returns, no three line feeds in a row, and no line feed at
either end. -/
structure Tidy (cs : List Char) : Prop where
  returns : '\r' ∉ cs
  rows : ¬ ['\n', '\n', '\n'] <:+: cs
  front : cs.head? ≠ some '\n'
  back : cs.getLast? ≠ some '\n'

/-- Three line feeds in a row are not read. -/
theorem rows_of_read {a b : LineState} (h : a.read cs = some b) :
    ¬ ['\n', '\n', '\n'] <:+: cs := by
  rintro ⟨before, rest, rfl⟩
  rw [List.append_assoc, LineState.read_append] at h
  obtain ⟨a', -, h⟩ := Option.bind_eq_some_iff.mp h
  cases a' <;> cases h

/-- A tidy text is its own normal form. -/
theorem normalizeChars_eq_self (h : Tidy cs) : normalizeChars cs = cs := by
  have hrows : ¬ ['\n', '\n', '\n'] <:+: List.replicate 0 '\n' ++ cs := h.rows
  rw [normalizeChars, universalNewlines_of_not_mem h.returns,
    squeezeLines_eq_self (Nat.zero_le 2) hrows]
  apply trim_of_ends
  · intro c hc
    apply beq_false_of_ne
    rintro rfl
    exact h.front hc
  · intro c hc
    apply beq_false_of_ne
    rintro rfl
    exact h.back hc

/-- **The texts in normal form** are the tidy texts. -/
theorem isNormal_iff_tidy : IsNormal cs ↔ Tidy cs := by
  constructor
  · intro h
    obtain ⟨b, hread, hb⟩ : ∃ b, LineState.read .start cs = some b ∧ (b = .start ∨ b = .inside) :=
      h.elim (fun h => ⟨_, h, .inl rfl⟩) fun h => ⟨_, h, .inr rfl⟩
    exact ⟨LineState.not_return_of_read hread, rows_of_read hread, LineState.head_of_read hread,
      LineState.getLast_of_read hread hb⟩
  · intro h
    rw [← normalizeChars_eq_self h]
    exact isNormal_normalizeChars cs

theorem tidy_normalize (s : String) : Tidy (normalize s).toList := by
  rw [normalize, String.toList_ofList]
  exact isNormal_iff_tidy.mp (isNormal_normalizeChars s.toList)

theorem normalize_eq_self_iff {s : String} : normalize s = s ↔ Tidy s.toList := by
  constructor
  · intro h
    rw [← h]
    exact tidy_normalize s
  · intro h
    exact normalize_of_isNormal (isNormal_iff_tidy.mpr h)

/-! ### What a normal form keeps -/

def written (cs : List Char) : List Char :=
  cs.filter fun c => c != '\n' && c != '\r'

theorem written_universalNewlines (cs : List Char) :
    written (universalNewlines cs) = written cs := by
  unfold written
  induction cs using universalNewlines.induct with
  | case1 => rfl
  | case2 cs ih => simpa [universalNewlines] using ih
  | case3 c cs hpair ih =>
    rw [universalNewlines]
    · split
      · rename_i hc
        subst hc
        simpa using ih
      · rw [List.filter_cons, List.filter_cons, ih]
    · exact hpair

theorem written_squeezeLines (run : Nat) (cs : List Char) :
    written (squeezeLines run cs) = written cs := by
  unfold written
  induction cs generalizing run with
  | nil => rfl
  | cons c cs ih =>
    rw [squeezeLines]
    split
    · rename_i hc
      subst hc
      split
      · simpa using ih (run + 1)
      · simpa using ih run
    · rw [List.filter_cons, List.filter_cons, ih]

theorem written_trimStart (cs : List Char) :
    written (trimStart (· == '\n') cs) = written cs := by
  obtain ⟨n, hn⟩ := exists_trimStart cs
  have hfeeds : written (List.replicate n '\n') = [] := by
    simp [written]
  conv_rhs => rw [hn]
  rw [written, written, List.filter_append]
  exact (congrArg (· ++ written (trimStart (· == '\n') cs)) hfeeds).symm

theorem written_reverse (cs : List Char) : written cs.reverse = (written cs).reverse :=
  List.filter_reverse ..

theorem written_trimEnd (cs : List Char) :
    written (trimEnd (· == '\n') cs) = written cs := by
  have hstart := written_trimStart cs.reverse
  rw [trimStart, written_reverse] at hstart
  rw [trimEnd, written_reverse, hstart, List.reverse_reverse]

/-- **A normal form keeps** every character that breaks no line. -/
theorem written_normalizeChars (cs : List Char) : written (normalizeChars cs) = written cs := by
  rw [normalizeChars, trim, written_trimEnd, written_trimStart, written_squeezeLines,
    written_universalNewlines]

/-! ### Paragraphs -/

/-- **A text that can stand between blank lines**: it is not empty, has no carriage returns and no
two line feeds in a row, and no line feed at either end. -/
structure IsParagraph (cs : List Char) : Prop where
  nonempty : cs ≠ []
  returns : '\r' ∉ cs
  rows : ¬ ['\n', '\n'] <:+: cs
  front : cs.head? ≠ some '\n'
  back : cs.getLast? ≠ some '\n'

/-- The part of a text that was read and is no paragraph yet: it has no two line feeds in a row,
and a line feed at its end is the only one there. -/
structure Begun (piece cs : List Char) : Prop where
  rows : ¬ ['\n', '\n'] <:+: piece
  single : piece.getLast? = some '\n' → cs.head? ≠ some '\n'

/-- Another character of a paragraph. -/
theorem Begun.concat {c : Char} (h : Begun piece (c :: cs))
    (hpair : c = '\n' → cs.head? ≠ some '\n') : Begun (piece ++ [c]) cs := by
  constructor
  · intro hrow
    rcases List.infix_concat_iff.mp hrow with hend | hrow
    · obtain ⟨before, hend⟩ := hend
      have hparts : (before ++ ['\n']) ++ ['\n'] = piece ++ [c] := by
        rw [List.append_assoc]
        exact hend
      obtain ⟨rfl, hc⟩ := List.append_inj' hparts rfl
      exact h.single (by simp) (by rw [← (List.cons.inj hc).1]; rfl)
    · exact h.rows hrow
  · intro hlast
    rw [List.getLast?_append] at hlast
    exact hpair (Option.some.inj hlast)

/-- **A tidy text is divided into paragraphs.** The paragraph being read and the text behind it are
tidy together. -/
theorem isParagraph_of_mem_splitBlankLines (hbegun : Begun piece cs) (htidy : Tidy (piece ++ cs))
    (hne : piece ++ cs ≠ []) : ∀ p ∈ splitBlankLines piece cs, IsParagraph p := by
  induction piece, cs using splitBlankLines.induct with
  | case1 piece cs ih =>
    have hpiece : piece ≠ [] := by
      rintro rfl
      exact htidy.front rfl
    have hrow : ∀ c, piece.getLast? = some c ∨ cs.head? = some c → c ≠ '\n' := by
      rintro c (hc | hc) rfl
      · exact hbegun.single hc rfl
      · obtain ⟨rest, rfl⟩ := List.head?_eq_some_iff.mp hc
        exact htidy.rows ⟨piece, rest, by simp⟩
    have hcs : cs ≠ [] := by
      rintro rfl
      exact htidy.back (by simp)
    rw [splitBlankLines]
    intro p hp
    rcases List.mem_cons.mp hp with rfl | hp
    · refine ⟨hpiece, fun h => htidy.returns (List.mem_append_left _ h), hbegun.rows, ?_,
        fun h => hrow _ (.inl h) rfl⟩
      intro h
      exact htidy.front (by rw [List.head?_append, h]; rfl)
    · have hsuffix : cs <:+ piece ++ '\n' :: '\n' :: cs := ⟨piece ++ ['\n', '\n'], by simp⟩
      refine ih ⟨by simp, by simp⟩ ⟨?_, ?_, ?_, ?_⟩ hcs p hp
      · exact fun h => htidy.returns (hsuffix.subset h)
      · exact fun h => htidy.rows (h.trans hsuffix.isInfix)
      · exact fun h => hrow _ (.inr h) rfl
      · intro h
        refine htidy.back ?_
        rw [List.getLast?_append, List.getLast?_cons_cons, List.getLast?_cons]
        rw [List.nil_append] at h
        simp [h]
  | case2 piece c cs hpair ih =>
    have hjoined : piece ++ [c] ++ cs = piece ++ c :: cs := List.append_cons .. |>.symm
    rw [splitBlankLines]
    · refine ih (hbegun.concat ?_) (hjoined ▸ htidy) (hjoined ▸ hne)
      intro hc hcs
      obtain ⟨rest, hrest⟩ := List.head?_eq_some_iff.mp hcs
      exact hpair rest hc hrest
    · exact hpair
  | case3 piece =>
    rw [List.append_nil] at htidy hne
    intro p hp
    obtain rfl : p = piece := by simpa [splitBlankLines] using hp
    exact ⟨hne, htidy.returns, hbegun.rows, htidy.front, htidy.back⟩

/-- A paragraph is read up to the blank line behind it. -/
theorem splitBlankLines_append (hrows : ¬ ['\n', '\n'] <:+: p) (hback : p.getLast? ≠ some '\n')
    (piece cs : List Char) :
    splitBlankLines piece (p ++ '\n' :: '\n' :: cs) = (piece ++ p) :: splitBlankLines [] cs := by
  induction p generalizing piece with
  | nil => simp [splitBlankLines]
  | cons c p ih =>
    have hpair : ∀ rest, c = '\n' → p ++ '\n' :: '\n' :: cs ≠ '\n' :: rest := by
      rintro rest rfl hrest
      cases p with
      | nil => exact hback rfl
      | cons d p =>
        obtain rfl : d = '\n' := (List.cons.inj hrest).1
        exact hrows ⟨[], p, rfl⟩
    have hlater : p.getLast? ≠ some '\n' := by
      intro h
      exact hback (by rw [List.getLast?_cons, h]; rfl)
    rw [List.cons_append, splitBlankLines]
    · rw [ih (fun h => hrows (h.trans (List.suffix_cons c p).isInfix)) hlater]
      simp
    · exact hpair

/-- The last paragraph is read up to the end of the text. -/
theorem splitBlankLines_single (hrows : ¬ ['\n', '\n'] <:+: p) (piece : List Char) :
    splitBlankLines piece p = [piece ++ p] := by
  induction p generalizing piece with
  | nil => simp [splitBlankLines]
  | cons c p ih =>
    rw [splitBlankLines]
    · rw [ih fun h => hrows (h.trans (List.suffix_cons c p).isInfix)]
      simp
    · rintro rest rfl rfl
      exact hrows ⟨[], rest, rfl⟩

/-- **Paragraphs with blank lines between them** are divided into what they were. -/
theorem splitBlankLines_intercalate {ps : List (List Char)} (hne : ps ≠ [])
    (h : ∀ p ∈ ps, IsParagraph p) : splitBlankLines [] (['\n', '\n'].intercalate ps) = ps := by
  induction ps with
  | nil => exact absurd rfl hne
  | cons p ps ih =>
    obtain ⟨hp, hps⟩ := List.forall_mem_cons.mp h
    cases ps with
    | nil =>
      rw [List.intercalate_singleton]
      exact splitBlankLines_single hp.rows []
    | cons q ps =>
      have hrest := ih (List.cons_ne_nil q ps) hps
      rw [List.intercalate_cons_cons, List.append_assoc]
      exact (splitBlankLines_append hp.rows hp.back [] _).trans (congrArg (p :: ·) hrest)

/-- A paragraph is read wherever the text before it stands, and ends within a line. -/
theorem read_of_isParagraph (h : IsParagraph p) (a : LineState) : a.read p = some .inside := by
  have htidy : Tidy p := by
    refine ⟨h.returns, fun hrow => h.rows ?_, h.front, h.back⟩
    exact List.IsInfix.trans ⟨[], ['\n'], rfl⟩ hrow
  obtain ⟨c, rest, rfl⟩ := List.exists_cons_of_ne_nil h.nonempty
  have hstart : LineState.read .start (c :: rest) = some .inside := by
    rcases isNormal_iff_tidy.mpr htidy with hread | hread
    · rcases LineState.inside_of_getLast hread h.back with ⟨hnil, -⟩ | hinside
      · cases hnil
      · cases hinside
    · exact hread
  have hfeed : c ≠ '\n' := by
    rintro rfl
    exact h.front rfl
  have hreturn : c ≠ '\r' := by
    rintro rfl
    exact h.returns List.mem_cons_self
  rw [← hstart, LineState.read_cons, LineState.read_cons, LineState.after_inside hfeed hreturn,
    LineState.after_inside hfeed hreturn]

theorem read_intercalate {ps : List (List Char)} (hne : ps ≠ []) (h : ∀ p ∈ ps, IsParagraph p)
    (a : LineState) : a.read (['\n', '\n'].intercalate ps) = some .inside := by
  induction ps generalizing a with
  | nil => exact absurd rfl hne
  | cons p ps ih =>
    obtain ⟨hp, hps⟩ := List.forall_mem_cons.mp h
    have hread := read_of_isParagraph hp a
    cases ps with
    | nil => rwa [List.intercalate_singleton]
    | cons q ps =>
      rw [List.intercalate_cons_cons, List.append_assoc, LineState.read_append, hread,
        Option.bind_some]
      exact ih (List.cons_ne_nil q ps) hps .blank

/-! ### Documents -/

/-- A document of paragraphs with the given texts. -/
def ofParagraphs (ps : List String) : Document :=
  ofChildren (ps.map paragraphOf)

/-- **A text is read** as a document of paragraphs. -/
theorem exists_read (s : String) :
    ∃ ps : List String, (∀ p ∈ ps, IsParagraph p.toList) ∧ read s = ofParagraphs ps := by
  have htidy := tidy_normalize s
  rw [normalize, String.toList_ofList] at htidy
  rw [read]
  split
  · exact ⟨[], by simp, rfl⟩
  · rename_i hne
    refine ⟨(splitBlankLines [] (normalizeChars s.toList)).map String.ofList, ?_, ?_⟩
    · intro p hp
      obtain ⟨cs, hcs, rfl⟩ := List.mem_map.mp hp
      rw [String.toList_ofList]
      exact isParagraph_of_mem_splitBlankLines ⟨by simp, by simp⟩ htidy hne cs hcs
    · rw [ofParagraphs, List.map_map]
      rfl

/-- Paragraphs with blank lines between them are read as the document of them. -/
theorem read_ofParagraphs {ps : List String} (h : ∀ p ∈ ps, IsParagraph p.toList) :
    read ("\n\n".intercalate ps) = ofParagraphs ps := by
  rcases List.eq_nil_or_concat ps with rfl | hconcat
  · rfl
  · have hne : ps.map String.toList ≠ [] := by
      obtain ⟨qs, q, rfl⟩ := hconcat
      simp
    have hparagraphs : ∀ p ∈ ps.map String.toList, IsParagraph p :=
      List.forall_mem_map.mpr h
    have hread := read_intercalate hne hparagraphs .start
    have htext : normalizeChars ("\n\n".intercalate ps).toList =
        ['\n', '\n'].intercalate (ps.map String.toList) := by
      rw [String.toList_intercalate]
      exact normalizeChars_of_isNormal (.inr hread)
    rw [read, htext]
    split
    · rename_i hnil
      rw [hnil] at hread
      cases hread
    · rw [splitBlankLines_intercalate hne hparagraphs, ofParagraphs, List.map_map]
      simp [Function.comp_def]

/-- **The documents that are read from texts** are those of paragraphs that can stand between blank
lines. -/
theorem exists_read_iff {d : Document} : (∃ s, read s = d) ↔
    ∃ ps : List String, (∀ p ∈ ps, IsParagraph p.toList) ∧ d = ofParagraphs ps := by
  constructor
  · rintro ⟨s, rfl⟩
    exact exists_read s
  · rintro ⟨ps, hps, rfl⟩
    exact ⟨"\n\n".intercalate ps, read_ofParagraphs hps⟩

theorem read_eq_read_iff {s t : String} : read s = read t ↔ normalize s = normalize t := by
  constructor
  · intro h
    rw [← write_read s, ← write_read t, h]
  · intro h
    have hchars : normalizeChars s.toList = normalizeChars t.toList := String.ofList_injective h
    rw [read, read, hchars]

/-- **The normal form of a text** is tidy, is that of itself, and keeps every character that breaks
no line. The text is read as a document of paragraphs, which is written as the normal form, and two
texts are read as the same document just when they have the same normal form. -/
theorem normal_form_read (s : String) :
    Tidy (normalize s).toList ∧
      normalize (normalize s) = normalize s ∧
      written (normalize s).toList = written s.toList ∧
      (∃ ps : List String, (∀ p ∈ ps, IsParagraph p.toList) ∧ read s = ofParagraphs ps) ∧
      (read s).write = normalize s ∧
      ∀ t, read s = read t ↔ normalize s = normalize t := by
  have hkept : written (normalize s).toList = written s.toList := by
    rw [normalize, String.toList_ofList]
    exact written_normalizeChars s.toList
  exact ⟨tidy_normalize s, normalize_eq_self_iff.mpr (tidy_normalize s), hkept, exists_read s,
    write_read s, fun t => read_eq_read_iff⟩

example : normalize "\n\na\r\n\r\n\r\nb\rc\n" = "a\n\nb\nc" := by
  decide +kernel

end Document

end Covenant
