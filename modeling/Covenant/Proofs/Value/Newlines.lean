import Covenant.Proofs.Value.Reading

/-!
JSON and the ends of its lines.

* `Text.SameLines`: a text and the text with line feeds for other ends of lines.
* `Json.Agrees`: readings of such texts that give the same value, or the same issue at places
  that may differ.
* `Json.decode_agrees`, `Json.readNumber_agrees`, `Json.read_agrees`: literals, numbers and
  values are read alike.
* `Json.read_universalNewlines`: so the ends of lines do not matter to JSON.
-/

namespace Covenant

namespace Text

variable {cs ds : List Char}

/-! ### Ends of lines -/

/-- The second text has line feeds where lines of the first end. -/
inductive SameLines : List Char → List Char → Prop
  | nil : SameLines [] []
  | pair {cs ds : List Char} (rest : SameLines cs ds) : SameLines ('\r' :: '\n' :: cs) ('\n' :: ds)
  | lone {cs ds : List Char} (rest : SameLines cs ds) : SameLines ('\r' :: cs) ('\n' :: ds)
  | char {c : Char} {cs ds : List Char} (hc : c ≠ '\r') (rest : SameLines cs ds) :
      SameLines (c :: cs) (c :: ds)

/-- Translating line ends changes line ends only. -/
theorem sameLines_universalNewlines (cs : List Char) : SameLines cs (universalNewlines cs) := by
  induction cs using universalNewlines.induct with
  | case1 => exact .nil
  | case2 cs ih => exact .pair ih
  | case3 c cs hpair ih =>
    rw [universalNewlines]
    · by_cases hc : c = '\r'
      · subst hc
        rw [if_pos rfl]
        exact .lone ih
      · rw [if_neg hc]
        exact .char hc ih
    · exact hpair

namespace SameLines

/-- Both texts are empty, begin with the same character in a line, or begin with the end of
one. -/
theorem view (h : SameLines cs ds) : (cs = [] ∧ ds = []) ∨
    (∃ c cs' ds', c ≠ '\r' ∧ c ≠ '\n' ∧ cs = c :: cs' ∧ ds = c :: ds' ∧ SameLines cs' ds') ∨
      ∃ c cs' ds', (c = '\r' ∨ c = '\n') ∧ cs = c :: cs' ∧ ds = '\n' :: ds' := by
  cases h with
  | nil => exact .inl ⟨rfl, rfl⟩
  | pair rest => exact .inr (.inr ⟨'\r', _, _, .inl rfl, rfl, rfl⟩)
  | lone rest => exact .inr (.inr ⟨'\r', _, _, .inl rfl, rfl, rfl⟩)
  | @char c cs ds hc rest =>
    by_cases hfeed : c = '\n'
    · subst hfeed
      exact .inr (.inr ⟨'\n', _, _, .inr rfl, rfl, rfl⟩)
    · exact .inr (.inl ⟨c, cs, ds, hc, hfeed, rfl, rfl, rest⟩)

/-- Only the empty text has the lines of the empty text. -/
theorem nil_iff (h : SameLines cs ds) : cs = [] ↔ ds = [] := by
  cases h <;> simp

/-- A character that is no carriage return stands on both sides. -/
theorem of_cons_left {c : Char} (hc : c ≠ '\r') (h : SameLines (c :: cs) ds) :
    ∃ ds', ds = c :: ds' ∧ SameLines cs ds' := by
  cases h with
  | pair | lone => exact absurd rfl hc
  | char _ rest => exact ⟨_, rfl, rest⟩

/-- A character that is no line feed stands on both sides. -/
theorem of_cons_right {c : Char} (hc : c ≠ '\n') (h : SameLines cs (c :: ds)) :
    ∃ cs', cs = c :: cs' ∧ SameLines cs' ds := by
  cases h with
  | pair | lone => exact absurd rfl hc
  | char _ rest => exact ⟨_, rfl, rest⟩

/-- Both texts begin with a character that ends no line, or neither does. -/
theorem start_cases {c : Char} (hreturn : c ≠ '\r') (hfeed : c ≠ '\n') (h : SameLines cs ds) :
    (∃ cs' ds', cs = c :: cs' ∧ ds = c :: ds' ∧ SameLines cs' ds') ∨
      (∀ cs', cs ≠ c :: cs') ∧ ∀ ds', ds ≠ c :: ds' := by
  by_cases hcs : ∃ cs', cs = c :: cs'
  · obtain ⟨cs', rfl⟩ := hcs
    obtain ⟨ds', rfl, hrest⟩ := h.of_cons_left hreturn
    exact .inl ⟨cs', ds', rfl, rfl, hrest⟩
  · refine .inr ⟨fun cs' hcs' => hcs ⟨cs', hcs'⟩, fun ds' hds => hcs ?_⟩
    subst hds
    obtain ⟨cs', rfl, -⟩ := h.of_cons_right hfeed
    exact ⟨cs', rfl⟩

/-- Characters that do not end lines are taken off both texts alike. -/
theorem span {p : Char → Bool} (hreturn : p '\r' = false) (hfeed : p '\n' = false)
    (h : SameLines cs ds) :
    cs.takeWhile p = ds.takeWhile p ∧ SameLines (cs.dropWhile p) (ds.dropWhile p) := by
  induction h with
  | nil => exact ⟨rfl, .nil⟩
  | pair rest _ => simpa [hreturn, hfeed] using SameLines.pair rest
  | lone rest _ => simpa [hreturn, hfeed] using SameLines.lone rest
  | @char c cs ds hc rest ih =>
    cases hp : p c with
    | true => simpa [hp] using ih
    | false => simpa [hp] using SameLines.char hc rest

/-- Blanks are taken off both texts. -/
theorem dropWhile {p : Char → Bool} (hreturn : p '\r' = true) (hfeed : p '\n' = true)
    (h : SameLines cs ds) : SameLines (cs.dropWhile p) (ds.dropWhile p) := by
  induction h with
  | nil => exact .nil
  | pair _ ih => simpa [hreturn, hfeed] using ih
  | lone _ ih => simpa [hreturn, hfeed] using ih
  | @char c cs ds hc rest ih =>
    cases hp : p c with
    | true => simpa [hp] using ih
    | false => simpa [hp] using SameLines.char hc rest

/-- A start without ends of lines is taken off both texts, or is at the start of neither. -/
theorem dropStart {pre : List Char} (hpre : ∀ c ∈ pre, c ≠ '\r' ∧ c ≠ '\n') (h : SameLines cs ds) :
    Option.Rel SameLines (dropStart? pre cs) (dropStart? pre ds) := by
  induction pre generalizing cs ds with
  | nil => exact .some h
  | cons p pre ih =>
    obtain ⟨⟨hreturn, hfeed⟩, hpre⟩ := List.forall_mem_cons.mp hpre
    rcases h.view with ⟨rfl, rfl⟩ | ⟨c, cs, ds, -, -, rfl, rfl, h'⟩ | ⟨c, cs, ds, hc, rfl, rfl⟩
    · exact .none
    · rw [dropStart?, dropStart?]
      split
      · exact ih hpre h'
      · exact .none
    · have hne : p ≠ c := by
        rintro rfl
        exact hc.elim hreturn hfeed
      rw [dropStart?, dropStart?, if_neg hne, if_neg hfeed]
      exact .none

end SameLines

end Text

namespace Json

open Text

/-! ### Readings that agree -/

/-- The same result with texts that go on alike, or the same fault at places that may differ. -/
inductive Agrees {ε α : Type} :
    Except (ε × Nat) (α × List Char) → Except (ε × Nat) (α × List Char) → Prop
  | ok (a : α) {cs ds : List Char} (rest : SameLines cs ds) : Agrees (.ok (a, cs)) (.ok (a, ds))
  | error (e : ε) (m n : Nat) : Agrees (.error (e, m)) (.error (e, n))

namespace Agrees

variable {ε α β : Type} {x y : Except (ε × Nat) (α × List Char)}

/-- Agreement survives a function of the results. -/
theorem map (h : Agrees x y) (f : α → β) :
    Agrees (x.map fun r => (f r.1, r.2)) (y.map fun r => (f r.1, r.2)) := by
  cases h with
  | ok a rest => exact .ok (f a) rest
  | error e m n => exact .error e m n

/-- Agreement survives a next step that agrees. -/
theorem bind (h : Agrees x y) {f g : α × List Char → Except (ε × Nat) (β × List Char)}
    (hfg : ∀ a cs ds, x = .ok (a, cs) → y = .ok (a, ds) → SameLines cs ds →
      Agrees (f (a, cs)) (g (a, ds))) : Agrees (x >>= f) (y >>= g) := by
  cases h with
  | ok a rest => exact hfg a _ _ rfl rfl rest
  | error e m n => exact .error e m n

end Agrees

/-- The same part taken off texts that go on alike. -/
def SameCut {α : Type} (a b : α × List Char) : Prop :=
  a.1 = b.1 ∧ SameLines a.2 b.2

variable {cs ds : List Char}

/-! ### Numbers -/

/-- A sign is cut off alike on both sides. -/
theorem takeSign_sameCut (h : SameLines cs ds) :
    SameCut (Decimal.takeSign cs) (Decimal.takeSign ds) := by
  have hplain : ∀ {c : Char} {cs : List Char}, c ≠ '-' → c ≠ '+' →
      Decimal.takeSign (c :: cs) = (false, c :: cs) := by
    intro c cs hminus hplus
    unfold Decimal.takeSign
    split <;> simp_all
  rcases h.view with ⟨rfl, rfl⟩ | ⟨c, cs', ds', -, -, rfl, rfl, h'⟩ | ⟨c, cs', ds', hc, rfl, rfl⟩
  · exact ⟨rfl, .nil⟩
  · by_cases hminus : c = '-'
    · subst hminus
      exact ⟨rfl, h'⟩
    by_cases hplus : c = '+'
    · subst hplus
      exact ⟨rfl, h'⟩
    · rw [hplain hminus hplus, hplain hminus hplus]
      exact ⟨rfl, h⟩
  · have hminus : c ≠ '-' := by rcases hc with rfl | rfl <;> decide
    have hplus : c ≠ '+' := by rcases hc with rfl | rfl <;> decide
    rw [hplain hminus hplus, hplain (by decide) (by decide)]
    exact ⟨rfl, h⟩

/-- A run of digits is the same on both sides. -/
theorem digits_span (h : SameLines cs ds) : cs.takeWhile Char.isDigit = ds.takeWhile Char.isDigit ∧
    SameLines (cs.dropWhile Char.isDigit) (ds.dropWhile Char.isDigit) :=
  h.span (by decide) (by decide)

theorem takeWhole_of_ne {c : Char} (hc : c ≠ '0') (cs : List Char) :
    takeWhole (c :: cs) = ((c :: cs).takeWhile Char.isDigit, (c :: cs).dropWhile Char.isDigit) := by
  unfold takeWhole
  split
  · simp_all
  · rfl

/-- The whole part of a number is cut off alike. -/
theorem takeWhole_sameCut (h : SameLines cs ds) : SameCut (takeWhole cs) (takeWhole ds) := by
  rcases h.view with ⟨rfl, rfl⟩ | ⟨c, cs', ds', -, -, rfl, rfl, h'⟩ | ⟨c, cs', ds', hc, rfl, rfl⟩
  · exact ⟨rfl, .nil⟩
  · by_cases hzero : c = '0'
    · subst hzero
      exact ⟨rfl, h'⟩
    · rw [takeWhole_of_ne hzero, takeWhole_of_ne hzero]
      exact digits_span h
  · have hzero : c ≠ '0' := by rcases hc with rfl | rfl <;> decide
    rw [takeWhole_of_ne hzero, takeWhole_of_ne (by decide)]
    exact digits_span h

theorem takeFraction_of_ne {c : Char} (hc : c ≠ '.') (cs : List Char) :
    takeFraction (c :: cs) = ([], c :: cs) := by
  unfold takeFraction
  split
  · simp_all
  · rfl

theorem takeFraction_point {c : Char} (cs : List Char) : takeFraction ('.' :: c :: cs) =
    if c.isDigit then ((c :: cs).takeWhile Char.isDigit, cs.dropWhile Char.isDigit)
    else ([], '.' :: c :: cs) := rfl

/-- The fraction is cut off alike. -/
theorem takeFraction_sameCut (h : SameLines cs ds) : SameCut (takeFraction cs) (takeFraction ds) := by
  rcases h.view with ⟨rfl, rfl⟩ | ⟨c, cs', ds', -, -, rfl, rfl, h'⟩ | ⟨c, cs', ds', hc, rfl, rfl⟩
  · exact ⟨rfl, .nil⟩
  · by_cases hpoint : c = '.'
    · subst hpoint
      rcases h'.view with ⟨rfl, rfl⟩ | ⟨d, cs, ds, -, -, rfl, rfl, h''⟩ | ⟨d, cs, ds, hd, rfl, rfl⟩
      · exact ⟨rfl, h⟩
      · rw [takeFraction_point, takeFraction_point]
        split
        · exact ⟨(digits_span h').1, (digits_span h'').2⟩
        · exact ⟨rfl, h⟩
      · have hdigit : d.isDigit = false := by rcases hd with rfl | rfl <;> decide
        rw [takeFraction_point, takeFraction_point, hdigit, if_neg (by simp), if_neg (by decide)]
        exact ⟨rfl, h⟩
    · rw [takeFraction_of_ne hpoint, takeFraction_of_ne hpoint]
      exact ⟨rfl, h⟩
  · have hpoint : c ≠ '.' := by rcases hc with rfl | rfl <;> decide
    rw [takeFraction_of_ne hpoint, takeFraction_of_ne (by decide)]
    exact ⟨rfl, h⟩

theorem takeExponent_of_ne {c : Char} (hlower : c ≠ 'e') (hupper : c ≠ 'E') (cs : List Char) :
    takeExponent (c :: cs) = (none, c :: cs) := by
  simp [takeExponent, hlower, hupper]

/-- The exponent is cut off alike. -/
theorem takeExponent_sameCut (h : SameLines cs ds) : SameCut (takeExponent cs) (takeExponent ds) := by
  rcases h.view with ⟨rfl, rfl⟩ | ⟨c, cs', ds', -, -, rfl, rfl, h'⟩ | ⟨c, cs', ds', hc, rfl, rfl⟩
  · exact ⟨rfl, .nil⟩
  · obtain ⟨hsign, hrest⟩ := takeSign_sameCut h'
    obtain ⟨hdigits, hafter⟩ := digits_span hrest
    unfold takeExponent
    dsimp only
    rw [← hsign, ← hdigits]
    split_ifs
    · exact ⟨rfl, h⟩
    all_goals first | exact ⟨rfl, hafter⟩ | exact ⟨rfl, h⟩
  · have hlower : c ≠ 'e' := by rcases hc with rfl | rfl <;> decide
    have hupper : c ≠ 'E' := by rcases hc with rfl | rfl <;> decide
    rw [takeExponent_of_ne hlower hupper, takeExponent_of_ne (by decide) (by decide)]
    exact ⟨rfl, h⟩

/-- **Numbers** are read alike. -/
theorem readNumber_agrees (negative : Bool) (m n : Nat) (h : SameLines cs ds) :
    Agrees (readNumber negative m cs) (readNumber negative n ds) := by
  obtain ⟨hwhole, h₁⟩ := takeWhole_sameCut h
  obtain ⟨hfraction, h₂⟩ := takeFraction_sameCut h₁
  obtain ⟨hexponent, h₃⟩ := takeExponent_sameCut h₂
  unfold readNumber
  dsimp only
  rw [← hwhole, ← hfraction, ← hexponent]
  split
  · exact .error _ _ _
  split
  · split
    · exact .error _ _ _
    · exact .ok _ h₃
  · exact .ok _ h₃

/-! ### Words -/

/-- A word without line ends is found alike. -/
theorem findWord_agrees {words : List (String × Value)}
    (hwords : ∀ e ∈ words, ∀ c ∈ e.1.toList, c ≠ '\r' ∧ c ≠ '\n') (h : SameLines cs ds) :
    Option.Rel SameCut
      (words.findSome? fun e => (dropStart? e.1.toList cs).map fun rest => (e.2, rest))
      (words.findSome? fun e => (dropStart? e.1.toList ds).map fun rest => (e.2, rest)) := by
  induction words with
  | nil => exact .none
  | cons e words ih =>
    obtain ⟨he, hwords⟩ := List.forall_mem_cons.mp hwords
    have hstart := h.dropStart he
    rw [List.findSome?_cons, List.findSome?_cons]
    cases hcs : dropStart? e.1.toList cs <;> cases hds : dropStart? e.1.toList ds <;>
      rw [hcs, hds] at hstart
    · exact ih hwords
    · cases hstart
    · cases hstart
    · cases hstart with
      | some hrest => exact .some ⟨rfl, hrest⟩

theorem word_agrees (h : SameLines cs ds) : Option.Rel SameCut (word? cs) (word? ds) := by
  have hplain : ∀ cs : List Char, (cs.all fun c => c != '\r' && c != '\n') = true →
      ∀ c ∈ cs, c ≠ '\r' ∧ c ≠ '\n' := by
    intro cs hcs
    simpa using hcs
  refine findWord_agrees ?_ h
  simp only [List.forall_mem_cons]
  exact ⟨hplain _ (by decide), hplain _ (by decide), hplain _ (by decide), hplain _ (by decide),
    hplain _ (by decide), hplain _ (by decide), nofun⟩

/-- A number is read alike. -/
theorem readSigned_agrees (h : SameLines cs ds) : Agrees (readSigned cs) (readSigned ds) := by
  rcases h.view with ⟨rfl, rfl⟩ | ⟨c, cs', ds', -, -, rfl, rfl, h'⟩ | ⟨c, cs', ds', hc, rfl, rfl⟩
  · exact readNumber_agrees false _ _ h
  · by_cases hminus : c = '-'
    · subst hminus
      exact readNumber_agrees true _ _ h'
    · rw [readSigned_of_ne hminus, readSigned_of_ne hminus]
      exact readNumber_agrees false _ _ h
  · have hminus : c ≠ '-' := by rcases hc with rfl | rfl <;> decide
    rw [readSigned_of_ne hminus, readSigned_of_ne (by decide)]
    exact readNumber_agrees false _ _ h

/-- Values that begin with no quote and no bracket are read alike. -/
theorem readPlain_agrees (h : SameLines cs ds) : Agrees (readPlain cs) (readPlain ds) := by
  have hword := word_agrees h
  unfold readPlain
  cases hcs : word? cs <;> cases hds : word? ds <;> rw [hcs, hds] at hword
  · exact readSigned_agrees h
  · cases hword
  · cases hword
  · rename_i r r'
    obtain ⟨v, rest⟩ := r
    obtain ⟨v', rest'⟩ := r'
    cases hword with
    | some hcut =>
      obtain ⟨rfl, hrest⟩ : v = v' ∧ SameLines rest rest' := hcut
      exact .ok v hrest

/-! ### Literals -/

theorem ne_of_hexValue {c : Char} {n : Nat} (h : hexValue? c = some n) : c ≠ '\r' ∧ c ≠ '\n' := by
  have hreturn : hexValue? '\r' = none := by decide
  have hfeed : hexValue? '\n' = none := by decide
  constructor <;> rintro rfl <;> simp_all

/-- The codes of units are read alike. -/
theorem unit_agrees (h : SameLines cs ds) :
    Option.Rel SameCut (JsonText.unit? cs) (JsonText.unit? ds) := by
  cases hcs : JsonText.unit? cs with
  | some r =>
    obtain ⟨n, rest⟩ := r
    obtain ⟨w, x, y, z, rfl, hne, a, b, c, d, ha, hb, hc, hd, hn⟩ := JsonText.unit_eq_some_iff.mp hcs
    obtain ⟨_, rfl, h₁⟩ := h.of_cons_left (ne_of_hexValue ha).1
    obtain ⟨_, rfl, h₂⟩ := h₁.of_cons_left (ne_of_hexValue hb).1
    obtain ⟨_, rfl, h₃⟩ := h₂.of_cons_left (ne_of_hexValue hc).1
    obtain ⟨rest', rfl, hrest⟩ := h₃.of_cons_left (ne_of_hexValue hd).1
    have hds : JsonText.unit? (w :: x :: y :: z :: rest') = some (n, rest') :=
      JsonText.unit_eq_some_iff.mpr
        ⟨w, x, y, z, rfl, fun hnil => hne (hrest.nil_iff.mpr hnil), a, b, c, d, ha, hb, hc, hd, hn⟩
    rw [hds]
    exact .some ⟨rfl, hrest⟩
  | none =>
    cases hds : JsonText.unit? ds with
    | none => exact .none
    | some r =>
      obtain ⟨n, rest⟩ := r
      obtain ⟨w, x, y, z, rfl, hne, a, b, c, d, ha, hb, hc, hd, hn⟩ :=
        JsonText.unit_eq_some_iff.mp hds
      obtain ⟨_, rfl, h₁⟩ := h.of_cons_right (ne_of_hexValue ha).2
      obtain ⟨_, rfl, h₂⟩ := h₁.of_cons_right (ne_of_hexValue hb).2
      obtain ⟨_, rfl, h₃⟩ := h₂.of_cons_right (ne_of_hexValue hc).2
      obtain ⟨rest', rfl, hrest⟩ := h₃.of_cons_right (ne_of_hexValue hd).2
      have hcs' : JsonText.unit? (w :: x :: y :: z :: rest') = some (n, rest') :=
        JsonText.unit_eq_some_iff.mpr
          ⟨w, x, y, z, rfl, fun hnil => hne (hrest.nil_iff.mp hnil), a, b, c, d, ha, hb, hc, hd, hn⟩
      cases hcs.symm.trans hcs'

/-- An escaped unit is at the start of both texts or of neither. -/
theorem escape_cases (h : SameLines cs ds) :
    (∃ cs' ds', cs = '\\' :: 'u' :: cs' ∧ ds = '\\' :: 'u' :: ds' ∧ SameLines cs' ds') ∨
      (∀ cs', cs ≠ '\\' :: 'u' :: cs') ∧ ∀ ds', ds ≠ '\\' :: 'u' :: ds' := by
  by_cases hcs : ∃ cs', cs = '\\' :: 'u' :: cs'
  · obtain ⟨cs', rfl⟩ := hcs
    obtain ⟨_, rfl, h₁⟩ := h.of_cons_left (by decide)
    obtain ⟨_, rfl, h₂⟩ := h₁.of_cons_left (by decide)
    exact .inl ⟨_, _, rfl, rfl, h₂⟩
  · refine .inr ⟨fun cs' hcs' => hcs ⟨cs', hcs'⟩, fun ds' hds => hcs ?_⟩
    subst hds
    obtain ⟨_, rfl, h₁⟩ := h.of_cons_right (by decide)
    obtain ⟨cs', rfl, -⟩ := h₁.of_cons_right (by decide)
    exact ⟨cs', rfl⟩

theorem lowSurrogate_of_ne (hcs : ∀ cs', cs ≠ '\\' :: 'u' :: cs') :
    JsonText.lowSurrogate? cs = none := by
  unfold JsonText.lowSurrogate?
  split
  · exact absurd rfl (hcs _)
  · rfl

/-- The second half of a pair is found alike. -/
theorem lowSurrogate_agrees (h : SameLines cs ds) :
    Option.Rel SameCut (JsonText.lowSurrogate? cs) (JsonText.lowSurrogate? ds) := by
  rcases escape_cases h with ⟨cs', ds', rfl, rfl, h'⟩ | ⟨hcs, hds⟩
  · have hunit := unit_agrees h'
    rw [JsonText.lowSurrogate?, JsonText.lowSurrogate?]
    cases hcs : JsonText.unit? cs' <;> cases hds : JsonText.unit? ds' <;> rw [hcs, hds] at hunit
    · exact .none
    · cases hunit
    · cases hunit
    · rename_i r r'
      obtain ⟨n, rest⟩ := r
      obtain ⟨n', rest'⟩ := r'
      cases hunit with
      | some hcut =>
        obtain ⟨rfl, hrest⟩ : n = n' ∧ SameLines rest rest' := hcut
        simp only [Option.bind_eq_bind, Option.bind_some]
        split
        · exact .some ⟨rfl, hrest⟩
        · exact .none
  · rw [lowSurrogate_of_ne hcs, lowSurrogate_of_ne hds]
    exact .none

/-- A high surrogate that no low one follows: what follows is no unit at all, or it is read by
itself. -/
theorem lone_cases (cs : List Char) :
    (∃ cs' n, cs = '\\' :: 'u' :: cs' ∧ JsonText.unit? cs' = none ∧
      (if JsonText.brokenPair cs then .error (.unit, cs.length - 1)
        else (JsonText.decode cs).map fun r => ('\uFFFD' :: r.1, r.2)) = .error (.unit, n)) ∨
      (∀ cs', cs = '\\' :: 'u' :: cs' → JsonText.unit? cs' ≠ none) ∧
        JsonText.brokenPair cs = false := by
  by_cases hcs : ∃ cs', cs = '\\' :: 'u' :: cs' ∧ JsonText.unit? cs' = none
  · obtain ⟨cs', rfl, hunit⟩ := hcs
    cases hbroken : JsonText.brokenPair ('\\' :: 'u' :: cs')
    · refine .inl ⟨cs', cs'.length + 1, rfl, hunit, ?_⟩
      rw [if_neg (by simp), JsonText.decode_unit_none hunit]
      rfl
    · exact .inl ⟨cs', _, rfl, hunit, if_pos rfl⟩
  · refine .inr ⟨fun cs' hcs' hunit => hcs ⟨cs', hcs', hunit⟩, ?_⟩
    rw [← Bool.not_eq_true]
    intro hbroken
    exact hcs (JsonText.exists_of_brokenPair hbroken)

/-- Literals are read alike after a high surrogate that no low one follows. -/
theorem lone_agrees (h : SameLines cs ds)
    (ih : Agrees (JsonText.decode cs) (JsonText.decode ds)) :
    Agrees
      (if JsonText.brokenPair cs then .error (.unit, cs.length - 1)
        else (JsonText.decode cs).map fun r => ('\uFFFD' :: r.1, r.2))
      (if JsonText.brokenPair ds then .error (.unit, ds.length - 1)
        else (JsonText.decode ds).map fun r => ('\uFFFD' :: r.1, r.2)) := by
  rcases lone_cases cs with ⟨cs', m, rfl, hunit, heq⟩ | ⟨hunit, hbroken⟩
  · obtain ⟨_, rfl, h₁⟩ := h.of_cons_left (by decide)
    obtain ⟨ds', rfl, h₂⟩ := h₁.of_cons_left (by decide)
    have hnone : JsonText.unit? ds' = none := by
      have hagrees := unit_agrees h₂
      rw [hunit] at hagrees
      cases hds : JsonText.unit? ds' with
      | none => rfl
      | some r => rw [hds] at hagrees; cases hagrees
    rcases lone_cases ('\\' :: 'u' :: ds') with ⟨_, n, -, -, heq'⟩ | ⟨hunit', -⟩
    · rw [heq, heq']
      exact .error _ _ _
    · exact absurd hnone (hunit' ds' rfl)
  · rcases lone_cases ds with ⟨ds', n, rfl, hnone, -⟩ | ⟨-, hbroken'⟩
    · obtain ⟨_, rfl, h₁⟩ := h.of_cons_right (by decide)
      obtain ⟨cs', rfl, h₂⟩ := h₁.of_cons_right (by decide)
      have hagrees := unit_agrees h₂
      rw [hnone] at hagrees
      cases hcs : JsonText.unit? cs' with
      | none => exact absurd hcs (hunit cs' rfl)
      | some r => rw [hcs] at hagrees; cases hagrees
    · rw [hbroken, hbroken', if_neg (by simp), if_neg (by simp)]
      exact ih.map _

section Decode

variable {n : Nat}
  (ih : ∀ {cs ds : List Char}, cs.length < n → SameLines cs ds →
    Agrees (JsonText.decode cs) (JsonText.decode ds))

include ih in
/-- Escapes by codes are read alike. -/
theorem decode_unit_agrees (hlength : cs.length < n) (h : SameLines cs ds) :
    Agrees (JsonText.decode ('\\' :: 'u' :: cs)) (JsonText.decode ('\\' :: 'u' :: ds)) := by
  have hunit := unit_agrees h
  cases hcs : JsonText.unit? cs <;> cases hds : JsonText.unit? ds <;> rw [hcs, hds] at hunit
  · rw [JsonText.decode_unit_none hcs, JsonText.decode_unit_none hds]
    exact .error _ _ _
  · cases hunit
  · cases hunit
  · rename_i r r'
    obtain ⟨k, rest⟩ := r
    obtain ⟨k', rest'⟩ := r'
    cases hunit with
    | some hcut =>
      obtain ⟨rfl, hrest⟩ : k = k' ∧ SameLines rest rest' := hcut
      have hlt := (JsonText.length_unit hcs).trans hlength
      by_cases hk : 0xD800 ≤ k ∧ k < 0xDC00
      · have hlow := lowSurrogate_agrees hrest
        cases hlow₁ : JsonText.lowSurrogate? rest <;> cases hlow₂ : JsonText.lowSurrogate? rest' <;>
          rw [hlow₁, hlow₂] at hlow
        · rw [JsonText.decode_unit_lone hcs hk hlow₁, JsonText.decode_unit_lone hds hk hlow₂]
          exact lone_agrees hrest (ih hlt hrest)
        · cases hlow
        · cases hlow
        · rename_i s s'
          obtain ⟨m, tail⟩ := s
          obtain ⟨m', tail'⟩ := s'
          cases hlow with
          | some hcut =>
            obtain ⟨rfl, htail⟩ : m = m' ∧ SameLines tail tail' := hcut
            rw [JsonText.decode_unit_pair hcs hk hlow₁, JsonText.decode_unit_pair hds hk hlow₂]
            exact (ih ((JsonText.length_lowSurrogate hlow₁).trans hlt) htail).map _
      · rw [JsonText.decode_unit_single hcs hk, JsonText.decode_unit_single hds hk]
        exact (ih hlt hrest).map _

include ih in
/-- Escapes are read alike. -/
theorem decode_escape_agrees (hlength : cs.length < n) (h : SameLines cs ds) :
    Agrees (JsonText.decode ('\\' :: cs)) (JsonText.decode ('\\' :: ds)) := by
  rcases h.view with ⟨rfl, rfl⟩ | ⟨c, cs, ds, -, -, rfl, rfl, h'⟩ | ⟨c, cs, ds, hc, rfl, rfl⟩
  · rw [JsonText.decode]
    exact .error _ _ _
  · have hlt := (Nat.lt_succ_self _).trans hlength
    by_cases hunit : c = 'u'
    · subst hunit
      exact decode_unit_agrees ih hlt h'
    · cases hletter : JsonText.unescape? c with
      | none =>
        rw [JsonText.decode_unknown hunit hletter, JsonText.decode_unknown hunit hletter]
        exact .error _ _ _
      | some d =>
        rw [JsonText.decode_short hunit hletter, JsonText.decode_short hunit hletter]
        exact (ih hlt h').map _
  · have hunit : c ≠ 'u' := by rcases hc with rfl | rfl <;> decide
    have hletter : JsonText.unescape? c = none := by rcases hc with rfl | rfl <;> decide
    rw [JsonText.decode_unknown hunit hletter, JsonText.decode_unknown (by decide) (by decide)]
    exact .error _ _ _

end Decode

/-- **Literals** are read alike. -/
theorem decode_agrees (h : SameLines cs ds) : Agrees (JsonText.decode cs) (JsonText.decode ds) := by
  induction hn : cs.length using Nat.strong_induction_on generalizing cs ds with
  | _ n ih =>
    subst hn
    have hbreak : ∀ {c : Char} {rest : List Char}, c = '\r' ∨ c = '\n' →
        JsonText.decode (c :: rest) = .error (.control, rest.length + 1) := by
      intro c rest hc
      refine JsonText.decode_control ?_ ?_ ?_ <;> rcases hc with rfl | rfl <;> decide
    rcases h.view with ⟨rfl, rfl⟩ | ⟨c, cs, ds, -, -, rfl, rfl, h'⟩ | ⟨c, cs, ds, hc, rfl, rfl⟩
    · rw [JsonText.decode]
      exact .error _ _ _
    · by_cases hquote : c = '"'
      · subst hquote
        rw [JsonText.decode, JsonText.decode]
        exact .ok [] h'
      by_cases hescape : c = '\\'
      · subst hescape
        exact decode_escape_agrees (fun hlt h => ih _ hlt h rfl) (Nat.lt_succ_self _) h'
      by_cases hcontrol : c.toNat < 32
      · rw [JsonText.decode_control hquote hescape hcontrol,
          JsonText.decode_control hquote hescape hcontrol]
        exact .error _ _ _
      · rw [JsonText.decode_plain hquote hescape hcontrol,
          JsonText.decode_plain hquote hescape hcontrol]
        exact (ih _ (Nat.lt_succ_self _) h' rfl).map _
    · rw [hbreak hc, hbreak (.inr rfl)]
      exact .error _ _ _

/-- A string is read alike: a line end inside makes both sides fail. -/
theorem readString_agrees (h : SameLines cs ds) : Agrees (readString cs) (readString ds) := by
  have hdecode := decode_agrees h
  unfold readString
  cases hcs : JsonText.decode cs <;> cases hds : JsonText.decode ds <;> rw [hcs, hds] at hdecode
  · rename_i e e'
    cases hdecode with
    | error fault m n => cases fault <;> exact .error _ _ _
  · cases hdecode
  · cases hdecode
  · cases hdecode with
    | ok text rest => exact .ok _ rest

/-! ### Values -/

theorem skip_sameLines (h : SameLines cs ds) : SameLines (skip cs) (skip ds) :=
  h.dropWhile (by decide) (by decide)

section Read

variable {fuel : Nat}
  (hvalue : ∀ {fuel' cs ds}, SameLines cs ds → 2 * cs.length + 1 ≤ fuel → 2 * ds.length + 1 ≤ fuel' →
    Agrees (readValue fuel cs) (readValue fuel' ds))
  (hitems : ∀ {fuel' cs ds}, SameLines cs ds → 2 * cs.length + 2 ≤ fuel → 2 * ds.length + 2 ≤ fuel' →
    Agrees (readItems fuel cs) (readItems fuel' ds))
  (hfields : ∀ {fuel' cs ds}, SameLines cs ds → 2 * cs.length + 2 ≤ fuel →
    2 * ds.length + 2 ≤ fuel' → Agrees (readFields fuel cs) (readFields fuel' ds))

include hitems in
/-- Lists are read alike after their opening brackets. -/
theorem readList_agrees {fuel' : Nat} (h : SameLines cs ds) (hfuel : 2 * cs.length + 2 ≤ fuel)
    (hfuel' : 2 * ds.length + 2 ≤ fuel') :
    Agrees (ε := Issue)
      (match skip cs with
        | ']' :: rest => .ok (Value.list [], rest)
        | rest => (readItems fuel rest).map fun r => (.list r.1, r.2))
      (match skip ds with
        | ']' :: rest => .ok (.list [], rest)
        | rest => (readItems fuel' rest).map fun r => (.list r.1, r.2)) := by
  have hskip := skip_sameLines h
  have := length_skip cs
  have := length_skip ds
  generalize skip cs = cs', skip ds = ds' at *
  rcases hskip.start_cases (c := ']') (by decide) (by decide) with ⟨s, t, rfl, rfl, hrest⟩ | ⟨hs, ht⟩
  · exact .ok _ hrest
  · split
    · exact absurd rfl (hs _)
    · exact (hitems hskip (by omega) (by omega)).map _

include hfields in
/-- Objects are read alike after their opening braces. -/
theorem readObject_agrees {fuel' : Nat} (h : SameLines cs ds) (hfuel : 2 * cs.length + 2 ≤ fuel)
    (hfuel' : 2 * ds.length + 2 ≤ fuel') :
    Agrees (ε := Issue)
      (match skip cs with
        | '\x7d' :: rest => .ok (Value.object [], rest)
        | rest => (readFields fuel rest).map fun r => (.object (Table.ofList r.1), r.2))
      (match skip ds with
        | '\x7d' :: rest => .ok (.object [], rest)
        | rest => (readFields fuel' rest).map fun r => (.object (Table.ofList r.1), r.2)) := by
  have hskip := skip_sameLines h
  have := length_skip cs
  have := length_skip ds
  generalize skip cs = cs', skip ds = ds' at *
  rcases hskip.start_cases (c := '\x7d') (by decide) (by decide) with
    ⟨s, t, rfl, rfl, hrest⟩ | ⟨hs, ht⟩
  · exact .ok _ hrest
  · split
    · exact absurd rfl (hs _)
    · have hread : Agrees (readFields fuel cs') (readFields fuel' ds') :=
        hfields hskip (by omega) (by omega)
      exact hread.map fun fs => Value.object (Table.ofList fs)

include hitems hfields in
/-- A value is read alike; the fuels only have to suffice. -/
theorem readValue_agrees {fuel' : Nat} (h : SameLines cs ds) (hfuel : 2 * cs.length ≤ fuel)
    (hfuel' : 2 * ds.length ≤ fuel') :
    Agrees (readValue (fuel + 1) cs) (readValue (fuel' + 1) ds) := by
  rcases readValue_cases fuel cs with ⟨rest, rfl, heq⟩ | ⟨rest, rfl, heq⟩ | ⟨rest, rfl, heq⟩ |
    ⟨hhead, heq⟩
  · obtain ⟨rest', rfl, hrest⟩ := h.of_cons_left (by decide)
    exact heq ▸ (readString_agrees hrest).map _
  · obtain ⟨rest', rfl, hrest⟩ := h.of_cons_left (by decide)
    rw [List.length_cons] at hfuel hfuel'
    exact heq ▸ readList_agrees hitems hrest (by omega) (by omega)
  · obtain ⟨rest', rfl, hrest⟩ := h.of_cons_left (by decide)
    rw [List.length_cons] at hfuel hfuel'
    exact heq ▸ readObject_agrees hfields hrest (by omega) (by omega)
  · rw [heq]
    -- the other text begins with no quote and no bracket either
    rcases readValue_cases fuel' ds with ⟨_, rfl, -⟩ | ⟨_, rfl, -⟩ | ⟨_, rfl, -⟩ | ⟨-, heq'⟩
    · obtain ⟨_, rfl, -⟩ := h.of_cons_right (by decide)
      exact absurd rfl (hhead _ rfl).1
    · obtain ⟨_, rfl, -⟩ := h.of_cons_right (by decide)
      exact absurd rfl (hhead _ rfl).2.1
    · obtain ⟨_, rfl, -⟩ := h.of_cons_right (by decide)
      exact absurd rfl (hhead _ rfl).2.2
    · rw [heq']
      exact readPlain_agrees h

include hvalue hitems in
/-- The items of a list are read alike. -/
theorem readItems_agrees {fuel' : Nat} (h : SameLines cs ds) (hfuel : 2 * cs.length + 1 ≤ fuel)
    (hfuel' : 2 * ds.length + 1 ≤ fuel') :
    Agrees (readItems (fuel + 1) cs) (readItems (fuel' + 1) ds) := by
  rw [readItems, readItems]
  refine (hvalue h hfuel hfuel').bind fun v cs' ds' hcs' hds' hrest => ?_
  have hlt := ((read_spec _).1 hcs').1
  have hlt' := ((read_spec _).1 hds').1
  have hskip := skip_sameLines hrest
  have := length_skip cs'
  have := length_skip ds'
  dsimp only
  generalize skip cs' = s, skip ds' = t at *
  rcases hskip.start_cases (c := ']') (by decide) (by decide) with ⟨s, t, rfl, rfl, hclosed⟩ |
    ⟨hs, ht⟩
  · exact .ok _ hclosed
  rcases hskip.start_cases (c := ',') (by decide) (by decide) with ⟨s, t, rfl, rfl, hcomma⟩ |
    ⟨hs', ht'⟩
  · have := length_skip s
    have := length_skip t
    rw [List.length_cons] at *
    refine (hitems (skip_sameLines hcomma) (by omega) (by omega)).bind fun vs cs ds _ _ hrest => ?_
    exact .ok _ hrest
  · split
    · exact absurd rfl (hs _)
    · exact absurd rfl (hs' _)
    · exact .error _ _ _

include hvalue hfields in
/-- The fields of an object are read alike. -/
theorem readFields_agrees {fuel' : Nat} (h : SameLines cs ds) (hfuel : 2 * cs.length + 1 ≤ fuel)
    (hfuel' : 2 * ds.length + 1 ≤ fuel') :
    Agrees (readFields (fuel + 1) cs) (readFields (fuel' + 1) ds) := by
  rw [readFields.eq_def, readFields.eq_def]
  dsimp only
  rcases h.start_cases (c := '"') (by decide) (by decide) with ⟨cs, ds, rfl, rfl, hquote⟩ | ⟨hs, ht⟩
  · rw [List.length_cons] at hfuel hfuel'
    refine (readString_agrees hquote).bind fun key cs₁ ds₁ hcs₁ hds₁ hkey => ?_
    have := readString_progress hcs₁
    have := readString_progress hds₁
    have := length_skip cs₁
    have := length_skip ds₁
    have hskip := skip_sameLines hkey
    dsimp only
    generalize skip cs₁ = s, skip ds₁ = t at *
    rcases hskip.start_cases (c := ':') (by decide) (by decide) with ⟨s, t, rfl, rfl, hcolon⟩ |
      ⟨hs, ht⟩
    · have := length_skip s
      have := length_skip t
      rw [List.length_cons] at *
      refine (hvalue (skip_sameLines hcolon) (by omega) (by omega)).bind
        fun v cs₂ ds₂ hcs₂ hds₂ hvalue => ?_
      have := ((read_spec _).1 hcs₂).1
      have := ((read_spec _).1 hds₂).1
      have := length_skip cs₂
      have := length_skip ds₂
      have hskip := skip_sameLines hvalue
      dsimp only
      generalize skip cs₂ = s', skip ds₂ = t' at *
      rcases hskip.start_cases (c := '\x7d') (by decide) (by decide) with
        ⟨s', t', rfl, rfl, hclosed⟩ | ⟨hs, ht⟩
      · exact .ok _ hclosed
      rcases hskip.start_cases (c := ',') (by decide) (by decide) with ⟨s', t', rfl, rfl, hcomma⟩ |
        ⟨hs', ht'⟩
      · have := length_skip s'
        have := length_skip t'
        rw [List.length_cons] at *
        refine (hfields (skip_sameLines hcomma) (by omega) (by omega)).bind
          fun fs _ _ _ _ hrest => ?_
        exact .ok _ hrest
      · split
        · exact absurd rfl (hs _)
        · exact absurd rfl (hs' _)
        · exact .error _ _ _
    · split
      · exact absurd rfl (hs _)
      · exact .error _ _ _
  · split
    · exact absurd rfl (hs _)
    · exact .error _ _ _

end Read

/-- **Values** are read alike, with enough fuel for both texts. -/
theorem read_agrees (fuel : Nat) :
    (∀ {fuel' cs ds}, SameLines cs ds → 2 * cs.length + 1 ≤ fuel → 2 * ds.length + 1 ≤ fuel' →
      Agrees (readValue fuel cs) (readValue fuel' ds)) ∧
    (∀ {fuel' cs ds}, SameLines cs ds → 2 * cs.length + 2 ≤ fuel → 2 * ds.length + 2 ≤ fuel' →
      Agrees (readItems fuel cs) (readItems fuel' ds)) ∧
    ∀ {fuel' cs ds}, SameLines cs ds → 2 * cs.length + 2 ≤ fuel → 2 * ds.length + 2 ≤ fuel' →
      Agrees (readFields fuel cs) (readFields fuel' ds) := by
  induction fuel with
  | zero => exact ⟨fun _ h => by omega, fun _ h => by omega, fun _ h => by omega⟩
  | succ fuel ih =>
    obtain ⟨hvalue, hitems, hfields⟩ := ih
    refine ⟨fun {fuel'} _ _ h hfuel hfuel' => ?_, fun {fuel'} _ _ h hfuel hfuel' => ?_,
      fun {fuel'} _ _ h hfuel hfuel' => ?_⟩
    all_goals
      obtain ⟨fuel', rfl⟩ := Nat.exists_eq_add_one_of_ne_zero (n := fuel') (by omega)
    · exact readValue_agrees hitems hfields h (by omega) (by omega)
    · exact readItems_agrees hvalue hitems h (by omega) (by omega)
    · exact readFields_agrees hvalue hfields h (by omega) (by omega)

/-! ### Whole texts -/

/-- The same value, or the same fault at places that may differ. -/
theorem readChars_agrees (h : SameLines cs ds) :
    (∃ v, readChars cs = .ok v ∧ readChars ds = .ok v) ∨
      ∃ e m n, readChars cs = .error (e, m) ∧ readChars ds = .error (e, n) := by
  rcases h.start_cases (c := '\uFEFF') (by decide) (by decide) with ⟨cs, ds, rfl, rfl, -⟩ | ⟨hs, ht⟩
  · exact .inr ⟨_, _, _, rfl, rfl⟩
  have hcs := length_skip cs
  have hds := length_skip ds
  have hvalue := (read_agrees (2 * cs.length + 2)).1 (skip_sameLines h) (by omega)
    (show 2 * (skip ds).length + 1 ≤ 2 * ds.length + 2 by omega)
  unfold readChars
  split
  · exact absurd rfl (hs _)
  generalize readValue _ (skip cs) = x, readValue _ (skip ds) = y at *
  cases hvalue with
  | error e m n => exact .inr ⟨e, m, n, rfl, rfl⟩
  | @ok v s t hrest =>
    have hnil := (skip_sameLines hrest).nil_iff
    simp only [bind, Except.bind]
    cases hcs : skip s with
    | nil =>
      rw [hnil.mp hcs]
      exact .inl ⟨v, rfl, rfl⟩
    | cons c rest =>
      cases hds : skip t with
      | nil => exact absurd (hnil.mpr hds) (by simp [hcs])
      | cons d rest' => exact .inr ⟨_, _, _, rfl, rfl⟩

/-- **The ends of lines** do not matter to JSON: with line feeds for them a text has the same
value, or the same issue. -/
theorem read_universalNewlines (s : String) :
    (read (String.ofList (universalNewlines s.toList))).mapError Fault.issue =
      (read s).mapError Fault.issue := by
  unfold read
  rw [String.toList_ofList]
  rcases readChars_agrees (sameLines_universalNewlines s.toList) with
    ⟨v, hs, ht⟩ | ⟨e, m, n, hs, ht⟩
  · rw [hs, ht]
  · rw [hs, ht]
    rfl

end Json

end Covenant
