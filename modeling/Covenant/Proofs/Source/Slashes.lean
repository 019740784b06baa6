import Covenant.Grammar.Source.Slashed
import Covenant.Grammar.Source.Token
import Covenant.Proofs.Text.Literal

/-!
Patterns between slashes: writing, scanning and reading.

* `encode_decode_encode`: reading a written pattern and writing it again changes
  nothing, for every pattern.
* `quotedBody_encode`: a scanner that counts backslash pairs finds the end of a written
  pattern, provided that the pattern ends in no unpaired backslash and has no backslash
  directly before a line feed (`Enclosable`).
* `enclosable_decode`: the patterns read from source are of this kind.
* `pieces`: a text cut from the left into backslash pairs and single characters.
* `pieces_encode`, `pieces_decode`: writing and reading a pattern change it piece by piece, and
  never move a cut.
* `respells_plain`, `respells_pair`: what a parser makes of a written pattern, piece by piece.
* `encode_retraction`: so writing twice is writing once, reading what is written loses only what
  writing changes, and a written pattern has its slashes in pairs.
-/

namespace Covenant.Slashed

/-- A pattern that can be put between slashes on one line: no backslash at its end is
without a partner, and none stands directly before a line feed. -/
def Enclosable (p : List Char) : Prop :=
  paired p = true ∧ ¬ ['\\', '\n'] <:+: p

/-! ### Writing again -/

/-- A character that is neither a backslash at the end nor one in front of another character. -/
theorem ne_backslash {c : Char} {cs : List Char} (hlast : c = '\\' → cs = [] → False)
    (hpair : ∀ d ds, c = '\\' → cs = d :: ds → False) : c ≠ '\\' := by
  intro hc
  cases cs with
  | nil => exact hlast hc rfl
  | cons d ds => exact hpair d ds hc rfl

theorem encode_cons_plain {c : Char} (h : c ≠ '\\') (cs : List Char) :
    encode (c :: cs) =
      (if c = '/' then ['\\', '/'] else if c = '\n' then ['\\', 'n']
        else if c = '\r' then ['\\', 'r'] else [c]) ++ encode cs := by
  rw [encode]
  · split
    · rfl
    split
    · rfl
    split <;> rfl
  · exact fun h' => absurd h' h
  · exact fun _ _ h' => absurd h' h

theorem decode_cons_plain {c : Char} (h : c ≠ '\\') (cs : List Char) :
    decode (c :: cs) = c :: decode cs := by
  rw [decode]
  · exact fun h' => absurd h' h
  · exact fun _ _ h' => absurd h' h

/-- **Written patterns are read and written unchanged.** Only an escaped slash loses
its backslash when it is read, and gets it back when it is written. -/
theorem encode_decode_encode (p : List Char) : encode (decode (encode p)) = encode p := by
  fun_induction encode p with
  | case1 => rfl
  | case2 => rfl
  | case3 c cs ih =>
    rw [decode]
    split
    · rename_i hc
      subst hc
      rw [encode_cons_plain (by decide), if_pos rfl, ih]
      rfl
    · rw [encode, ih]
  | case4 cs _ _ ih =>
    rw [decode, if_pos rfl, encode_cons_plain (by decide), if_pos rfl, ih]
    rfl
  | case5 cs _ _ _ ih =>
    rw [decode, if_neg (by decide), encode, ih]
  | case6 cs _ _ _ _ ih =>
    rw [decode, if_neg (by decide), encode, ih]
  | case7 c cs h1 h2 hs hn hr ih =>
    have hb : c ≠ '\\' := ne_backslash h1 h2
    rw [decode_cons_plain hb, encode_cons_plain hb, if_neg hs, if_neg hn, if_neg hr, ih]
    rfl

/-! ### Patterns read from source -/

theorem paired_decode {b : List Char} (h : paired b = true) : paired (decode b) = true := by
  fun_induction decode b with
  | case1 => exact h
  | case2 => exact h
  | case3 cs ih =>
    rw [paired_cons_plain (by decide)]
    exact ih h
  | case4 c cs hc ih =>
    rw [paired]
    exact ih h
  | case5 c cs h1 h2 ih =>
    have hb : c ≠ '\\' := ne_backslash h1 h2
    rw [paired_cons_plain hb] at h ⊢
    exact ih h

/-- Reading drops backslashes only. -/
theorem mem_of_mem_decode {b : List Char} {x : Char} (h : x ∈ decode b) : x ∈ b := by
  fun_induction decode b with
  | case1 => exact h
  | case2 => exact h
  | case3 cs ih =>
    rcases List.mem_cons.mp h with rfl | h
    · simp
    · simp [ih h]
  | case4 c cs hc ih =>
    rcases List.mem_cons.mp h with rfl | h
    · simp
    · rcases List.mem_cons.mp h with rfl | h
      · simp
      · simp [ih h]
  | case5 c cs h1 h2 ih =>
    rcases List.mem_cons.mp h with rfl | h
    · simp
    · simp [ih h]

theorem enclosable_decode {b : List Char} (hp : paired b = true) (hn : '\n' ∉ b) :
    Enclosable (decode b) := by
  refine ⟨paired_decode hp, fun hinfix => hn (mem_of_mem_decode ?_)⟩
  exact hinfix.subset (by simp)

/-! ### Pieces -/

/-- A text cut from the left into backslash pairs and single characters. -/
def pieces : List Char → List (List Char)
  | [] => []
  | ['\\'] => [['\\']]
  | '\\' :: c :: cs => ['\\', c] :: pieces cs
  | c :: cs => [c] :: pieces cs

theorem pieces_cons_plain {c : Char} (h : c ≠ '\\') (cs : List Char) :
    pieces (c :: cs) = [c] :: pieces cs := by
  rw [pieces]
  · exact fun h' => absurd h' h
  · exact fun _ _ h' => absurd h' h

/-- **Nothing is lost by cutting.** -/
theorem flatten_pieces (p : List Char) : (pieces p).flatten = p := by
  fun_induction pieces p <;> simp_all

/-- A piece is a pair or a single character. -/
theorem piece_cases {p u : List Char} (h : u ∈ pieces p) :
    (∃ c, u = ['\\', c]) ∨ ∃ c, u = [c] := by
  fun_induction pieces p with
  | case1 => cases h
  | case2 => exact .inr ⟨_, List.mem_singleton.mp h⟩
  | case3 c cs ih =>
    rcases List.mem_cons.mp h with rfl | h
    · exact .inl ⟨c, rfl⟩
    · exact ih h
  | case4 c cs _ _ ih =>
    rcases List.mem_cons.mp h with rfl | h
    · exact .inr ⟨c, rfl⟩
    · exact ih h

/-! ### Writing and reading piece by piece -/

/-- A piece of a pattern as it is written: single slashes and line breaks become pairs. -/
def encodePiece (u : List Char) : List Char :=
  if u = ['/'] then ['\\', '/'] else if u = ['\n'] then ['\\', 'n']
  else if u = ['\r'] then ['\\', 'r'] else u

/-- A written piece as it is read: of the pairs only that of the slash is dissolved. -/
def decodePiece (u : List Char) : List Char :=
  if u = ['\\', '/'] then ['/'] else u

/-- **Writing goes piece by piece** and moves no cut. -/
theorem pieces_encode (p : List Char) : pieces (encode p) = (pieces p).map encodePiece := by
  fun_induction encode p with
  | case1 => rfl
  | case2 => rfl
  | case3 c cs ih => simp [pieces, encodePiece, ih]
  | case4 cs _ _ ih =>
    rw [pieces, ih, pieces_cons_plain (by decide)]
    rfl
  | case5 cs _ _ _ ih =>
    rw [pieces, ih, pieces_cons_plain (by decide)]
    rfl
  | case6 cs _ _ _ _ ih =>
    rw [pieces, ih, pieces_cons_plain (by decide)]
    rfl
  | case7 c cs h1 h2 hs hn hr ih =>
    have hb : c ≠ '\\' := ne_backslash h1 h2
    simp [pieces_cons_plain hb, encodePiece, ih, hs, hn, hr]

/-- **Reading goes piece by piece** and moves no cut. -/
theorem pieces_decode (b : List Char) : pieces (decode b) = (pieces b).map decodePiece := by
  fun_induction decode b with
  | case1 => rfl
  | case2 => rfl
  | case3 cs ih =>
    rw [pieces_cons_plain (by decide), ih, pieces]
    rfl
  | case4 c cs hc ih => simp [pieces, decodePiece, ih, hc]
  | case5 c cs h1 h2 ih =>
    have hb : c ≠ '\\' := ne_backslash h1 h2
    simp [pieces_cons_plain hb, decodePiece, ih]

/-- Texts with the same pieces are the same. -/
theorem eq_of_pieces {p q : List Char} (h : pieces p = pieces q) : p = q := by
  rw [← flatten_pieces p, h, flatten_pieces]

/-! ### What is written -/

/-- What becomes of a piece when it is written. -/
theorem encodePiece_cases (u : List Char) :
    u = ['/'] ∧ encodePiece u = ['\\', '/'] ∨ u = ['\n'] ∧ encodePiece u = ['\\', 'n'] ∨
      u = ['\r'] ∧ encodePiece u = ['\\', 'r'] ∨
        (u ≠ ['/'] ∧ u ≠ ['\n'] ∧ u ≠ ['\r']) ∧ encodePiece u = u := by
  by_cases hslash : u = ['/']
  · exact .inl ⟨hslash, by rw [hslash]; rfl⟩
  by_cases hfeed : u = ['\n']
  · exact .inr (.inl ⟨hfeed, by rw [hfeed]; rfl⟩)
  by_cases hreturn : u = ['\r']
  · exact .inr (.inr (.inl ⟨hreturn, by rw [hreturn]; rfl⟩))
  refine .inr (.inr (.inr ⟨⟨hslash, hfeed, hreturn⟩, ?_⟩))
  rw [encodePiece, if_neg hslash, if_neg hfeed, if_neg hreturn]

theorem encodePiece_encodePiece (u : List Char) : encodePiece (encodePiece u) = encodePiece u := by
  rcases encodePiece_cases u with ⟨rfl, _⟩ | ⟨rfl, _⟩ | ⟨rfl, _⟩ | ⟨_, h⟩
  · rfl
  · rfl
  · rfl
  · rw [h, h]

/-- **Written twice is written once.** -/
theorem encode_encode (p : List Char) : encode (encode p) = encode p := by
  apply eq_of_pieces
  rw [pieces_encode, pieces_encode, List.map_map]
  exact List.map_congr_left fun u _ => encodePiece_encodePiece u

/-- **A written slash is the second character of a pair.** -/
theorem slash_piece_encode {p u : List Char} (hu : u ∈ pieces (encode p)) (hslash : '/' ∈ u) :
    u = ['\\', '/'] := by
  rcases piece_cases hu with ⟨c, rfl⟩ | ⟨c, rfl⟩
  · obtain rfl : '/' = c := by simpa using hslash
    rfl
  · -- a slash on its own is no written piece
    obtain rfl : '/' = c := List.mem_singleton.mp hslash
    rw [pieces_encode] at hu
    obtain ⟨w, _, hw⟩ := List.mem_map.mp hu
    rcases encodePiece_cases w with ⟨_, h⟩ | ⟨_, h⟩ | ⟨_, h⟩ | ⟨⟨hplain, _⟩, h⟩
    · cases h.symm.trans hw
    · cases h.symm.trans hw
    · cases h.symm.trans hw
    · exact absurd (h.symm.trans hw) hplain

/-- A piece is read as it was before it was written, unless it is an escaped slash or a bare
line break. -/
theorem decodePiece_encodePiece_iff (u : List Char) : decodePiece (encodePiece u) = u ↔
    u ≠ ['\\', '/'] ∧ u ≠ ['\n'] ∧ u ≠ ['\r'] := by
  rcases encodePiece_cases u with ⟨rfl, _⟩ | ⟨rfl, _⟩ | ⟨rfl, _⟩ | ⟨⟨_, hfeed, hreturn⟩, h⟩
  · decide
  · decide
  · decide
  · rw [h, decodePiece]
    by_cases hpair : u = ['\\', '/'] <;> simp [hpair, hfeed, hreturn]

/-- **What is read again after writing**: a pattern without escaped slashes and bare line
breaks. -/
theorem decode_encode_eq_self_iff {p : List Char} : decode (encode p) = p ↔
    ['\\', '/'] ∉ pieces p ∧ ['\n'] ∉ pieces p ∧ ['\r'] ∉ pieces p := by
  have hpieces : decode (encode p) = p ↔ ∀ u ∈ pieces p, decodePiece (encodePiece u) = u := by
    rw [← List.map_inj_left, List.map_id', ← Function.comp_def, ← List.map_map, ← pieces_encode,
      ← pieces_decode]
    exact ⟨congrArg pieces, eq_of_pieces⟩
  rw [hpieces]
  simp only [decodePiece_encodePiece_iff]
  constructor
  · exact fun h => ⟨fun hu => (h _ hu).1 rfl, fun hu => (h _ hu).2.1 rfl, fun hu => (h _ hu).2.2 rfl⟩
  · rintro ⟨hslash, hfeed, hreturn⟩ u hu
    exact ⟨fun h => hslash (h ▸ hu), fun h => hfeed (h ▸ hu), fun h => hreturn (h ▸ hu)⟩

/-- **Writing is a retraction.** A pattern that is written twice, or read in between, is as it is
written once; it is read as it was iff it has no escaped slash and no bare line break; and what is
written has its slashes in pairs only. -/
theorem encode_retraction (p : List Char) :
    encode (encode p) = encode p ∧ encode (decode (encode p)) = encode p ∧
      (decode (encode p) = p ↔ ['\\', '/'] ∉ pieces p ∧ ['\n'] ∉ pieces p ∧ ['\r'] ∉ pieces p) ∧
      ∀ u ∈ pieces (encode p), '/' ∈ u → u = ['\\', '/'] :=
  ⟨encode_encode p, encode_decode_encode p, decode_encode_eq_self_iff,
    fun _ => slash_piece_encode⟩

/-- Only the first of two slashes is escaped already, so reading frees both. -/
example : encode "\\//".toList = "\\/\\/".toList ∧ decode "\\/\\/".toList = "//".toList := by decide

/-! ### What a parser reads -/

theorem body_pair (c : Char) (cs : List Char) : body ('\\' :: c :: cs) = '\\' :: c :: body cs := by
  rw [body, encode, hideQuotes, body]

theorem body_cons_plain {c : Char} (h : c ≠ '\\') (cs : List Char) : body (c :: cs) =
    (if c = '/' then ['\\', '/'] else if c = '\n' then ['\\', 'n'] else if c = '\r' then ['\\', 'r']
      else if c = '"' then ['\\', 'x', '2', '2'] else [c]) ++ body cs := by
  rw [body, encode_cons_plain h]
  split
  · rfl
  split
  · rfl
  split
  · rfl
  · rw [List.singleton_append, hideQuotes]
    · split <;> rfl
    · exact fun h' => absurd h' h
    · exact fun _ _ h' => absurd h' h

/-- An escape is dissolved into what it stands for. -/
theorem unescape_escape {cs read : List Char} {taken : Nat} (h : escape? cs = some (read, taken)) :
    unescape? ('\\' :: cs) = (unescapeFrom? taken cs).map (read ++ ·) := by
  rw [unescape?, unescapeFrom?, if_pos rfl, h]
  cases hrest : unescapeFrom? taken cs <;> simp [hrest]

theorem unescape_plain {c : Char} (hpair : c ≠ '\\') (hfeed : c ≠ '\n') (hreturn : c ≠ '\r')
    (cs : List Char) : unescape? (c :: cs) = (unescape? cs).map (c :: ·) := by
  rw [unescape?, unescapeFrom?, if_neg hpair, if_neg (not_or.mpr ⟨hfeed, hreturn⟩), unescape?]

/-- A beginning of a regular expression becomes another one, whatever follows it. -/
def Respells (front front' : List Char) : Prop :=
  ∀ cs, respell? (front ++ cs) = (respell? cs).map (front' ++ ·)

theorem Respells.append {front front' back back' : List Char} (h : Respells front front')
    (h' : Respells back back') : Respells (front ++ back) (front' ++ back') := by
  intro cs
  rw [List.append_assoc, h, h', Option.map_map]
  simp only [Function.comp_def, List.append_assoc]

theorem respells_slash : Respells ['/'] ['\\', '/'] := by
  intro cs
  have hescape : escape? ('/' :: body cs) = some (['\\', '/'], 1) := rfl
  rw [respell?, List.singleton_append, body_cons_plain (by decide), if_pos rfl]
  exact unescape_escape hescape

/-- **A character that is neither a backslash nor a slash** is left as it is. -/
theorem respells_plain {c : Char} (hpair : c ≠ '\\') (hslash : c ≠ '/') : Respells [c] [c] := by
  intro cs
  have hn : escape? ('n' :: body cs) = some (['\n'], 1) := rfl
  have hr : escape? ('r' :: body cs) = some (['\r'], 1) := rfl
  have hquote : escape? ('x' :: '2' :: '2' :: body cs) = some (['"'], 3) := rfl
  rw [respell?, List.singleton_append, body_cons_plain hpair, if_neg hslash]
  split
  · rename_i h
    exact h ▸ unescape_escape hn
  rename_i hfeed
  split
  · rename_i h
    exact h ▸ unescape_escape hr
  rename_i hreturn
  split
  · rename_i h
    exact h ▸ unescape_escape hquote
  · exact unescape_plain hpair hfeed hreturn _

theorem respells_chars {front : List Char}
    (h : (front.all fun c => c != '\\' && c != '/') = true) : Respells front front := by
  induction front with
  | nil =>
    intro cs
    simp
  | cons c front ih =>
    rw [List.all_cons, Bool.and_eq_true, Bool.and_eq_true, bne_iff_ne, bne_iff_ne] at h
    exact (respells_plain h.1.1 h.1.2).append (ih h.2)

theorem escape_pair {c : Char} (h : c ∉ "xuUnrtf\"\n\r".toList) (cs : List Char) :
    escape? (c :: cs) = some (['\\', c], 1) := by
  rw [escape?, if_neg]
  · rintro (rfl | rfl) <;> exact h (by decide)
  all_goals
    rintro rfl
    exact h (by decide)

/-- **A pair that string literals do not know** is left as it is. -/
theorem respells_pair {c : Char} (h : c ∉ "xuUnrtf\"\n\r".toList) :
    Respells ['\\', c] ['\\', c] := by
  intro cs
  rw [respell?, List.cons_append, List.singleton_append, body_pair]
  exact unescape_escape (escape_pair h _)

/-- **An escaped line break** cannot stand between slashes. -/
theorem respell_break {c : Char} (h : c = '\n' ∨ c = '\r') (cs : List Char) :
    respell? ('\\' :: c :: cs) = none := by
  rw [respell?, body_pair, unescape?, unescapeFrom?, if_pos rfl]
  rcases h with rfl | rfl <;> rfl

/-- A character code is dissolved, and a full stop is then no longer a text but a pattern. -/
example : respell? "\\x2e".toList = some ".".toList ∧ respell? "\\.".toList = some "\\.".toList := by
  decide

end Covenant.Slashed

namespace Covenant.Source

/-! ### Scanning up to a closing quote -/

theorem quotedBody_pair {quote c : Char} (h : c ≠ '\n') (cs : List Char) :
    quotedBody quote ('\\' :: c :: cs) =
      (quotedBody quote cs).map fun r => ('\\' :: c :: r.1, r.2) := by
  rw [quotedBody, if_neg h]

theorem quotedBody_close {quote : Char} (h : quote ≠ '\\') (cs : List Char) :
    quotedBody quote (quote :: cs) = some ([], cs) := by
  rw [quotedBody, if_pos rfl]
  · exact fun h' => absurd h' h
  · exact fun _ _ h' => absurd h' h

/-- **A scanned body ends at its quote**, pairs its backslashes and holds no line
feed. -/
theorem quotedBody_eq_some {quote : Char} {cs body rest : List Char}
    (h : quotedBody quote cs = some (body, rest)) :
    cs = body ++ quote :: rest ∧ Slashed.paired body = true ∧ '\n' ∉ body := by
  fun_induction quotedBody quote cs generalizing body rest with
  | case1 => cases h
  | case2 => cases h
  | case3 => cases h
  | case4 c cs hc ih =>
    obtain ⟨⟨b, r⟩, hr, heq⟩ := Option.map_eq_some_iff.mp h
    cases heq
    obtain ⟨rfl, hp, hn⟩ := ih hr
    exact ⟨by simp, by rw [Slashed.paired]; exact hp, by simp [hn, Ne.symm hc]⟩
  | case5 cs h1 h2 =>
    cases h
    exact ⟨by simp, rfl, by simp⟩
  | case6 => cases h
  | case7 c cs h1 h2 hq hn ih =>
    obtain ⟨⟨b, r⟩, hr, heq⟩ := Option.map_eq_some_iff.mp h
    cases heq
    obtain ⟨rfl, hp, hb⟩ := ih hr
    have hc : c ≠ '\\' := by
      rintro rfl
      cases b with
      | nil => exact h2 quote r rfl rfl
      | cons d ds => exact h2 d (ds ++ quote :: r) rfl rfl
    exact ⟨by simp, by rw [Slashed.paired_cons_plain hc]; exact hp, by simp [hb, Ne.symm hn]⟩

/-- **A written pattern is scanned whole.** -/
theorem quotedBody_encode {p : List Char} (h : Slashed.Enclosable p) (rest : List Char) :
    quotedBody '/' (Slashed.encode p ++ '/' :: rest) = some (Slashed.encode p, rest) := by
  obtain ⟨hp, hn⟩ := h
  fun_induction Slashed.encode p with
  | case1 => exact quotedBody_close (by decide) rest
  | case2 => simp [Slashed.paired] at hp
  | case3 c cs ih =>
    have hc : c ≠ '\n' := by
      rintro rfl
      exact hn ⟨[], cs, rfl⟩
    rw [List.cons_append, List.cons_append, quotedBody_pair hc,
      ih (by simpa [Slashed.paired] using hp) fun h => hn (h.trans ⟨['\\', c], [], by simp⟩)]
    rfl
  | case4 cs h1 h2 ih =>
    rw [List.cons_append, List.cons_append, quotedBody_pair (by decide),
      ih (by rwa [Slashed.paired_cons_plain (by decide)] at hp)
        fun h => hn (h.trans ⟨['/'], [], by simp⟩)]
    rfl
  | case5 cs h1 h2 _ ih =>
    rw [List.cons_append, List.cons_append, quotedBody_pair (by decide),
      ih (by rwa [Slashed.paired_cons_plain (by decide)] at hp)
        fun h => hn (h.trans ⟨['\n'], [], by simp⟩)]
    rfl
  | case6 cs h1 h2 _ _ ih =>
    rw [List.cons_append, List.cons_append, quotedBody_pair (by decide),
      ih (by rwa [Slashed.paired_cons_plain (by decide)] at hp)
        fun h => hn (h.trans ⟨['\r'], [], by simp⟩)]
    rfl
  | case7 c cs h1 h2 hs hl hr ih =>
    have hb : c ≠ '\\' := Slashed.ne_backslash h1 h2
    rw [List.cons_append, quotedBody_plain hb hs hl,
      ih (by rwa [Slashed.paired_cons_plain hb] at hp)
        fun h => hn (h.trans ⟨[c], [], by simp⟩)]
    rfl

theorem quotedBody_append {quote : Char} {w : List Char}
    (hw : ∀ c ∈ w, c ≠ '\\' ∧ c ≠ quote ∧ c ≠ '\n') (cs : List Char) :
    quotedBody quote (w ++ cs) = (quotedBody quote cs).map fun r => (w ++ r.1, r.2) := by
  induction w with
  | nil => simp
  | cons c w ih =>
    obtain ⟨hb, hq, hn⟩ := hw c (by simp)
    rw [List.cons_append, quotedBody_plain hb hq hn, ih fun d hd => hw d (by simp [hd])]
    simp [Option.map_map, Function.comp_def]

/-- **A written JSON literal is scanned whole.** -/
theorem quotedBody_literal (cs rest : List Char) :
    quotedBody '"' (JsonText.encode false cs ++ '"' :: rest) =
      some (JsonText.encode false cs, rest) := by
  induction cs with
  | nil => exact quotedBody_close (by decide) rest
  | cons c cs ih =>
    rw [show JsonText.encode false (c :: cs)
      = JsonText.escape false c ++ JsonText.encode false cs from rfl, List.append_assoc]
    rcases JsonText.escape_cases c with ⟨d, _, hd, he⟩ | ⟨hc, he⟩ | ⟨hq, hb, hc, he⟩
    · have hd' : d ≠ '\n' := by
        rintro rfl
        cases hd
      rw [he, List.cons_append, List.singleton_append, quotedBody_pair hd', ih]
      rfl
    · rw [he, JsonText.escapeUnit, List.cons_append, List.cons_append,
        quotedBody_pair (by decide), quotedBody_append (JsonText.hexDigits_plain hc), ih]
      rfl
    · have hn : c ≠ '\n' := by
        rintro rfl
        exact hc (by decide)
      rw [he, List.singleton_append, quotedBody_plain hb hq hn, ih]
      rfl

end Covenant.Source
