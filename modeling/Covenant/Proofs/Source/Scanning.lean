import Covenant.Grammar.Source.Writer
import Covenant.Proofs.Source.Slashes
import Covenant.Proofs.Text.Basic

/-!
Scanning of grammar source.

`Scans cs ts rest` says that the tokens `ts` are scanned one after the other from the
start of `cs` and leave `rest`. It is the scanner without its fuel and without the
places of tokens (`map_token_tokens`); readings compose (`Scans.append`).

* `scans_name`, `scans_literal`, `scans_pattern`, `scans_number`, `scans_comment`: what
  each kind of token is written as is scanned as that token.
* `scans_symbol`, `scans_action`: the same for written symbols and actions.
-/

namespace Covenant.Source

def isGap (c : Char) : Bool :=
  c == ' ' || c == '\t'

/-- The tokens `ts` are scanned from the start of a text and leave the rest of it. -/
inductive Scans : List Char → List Token → List Char → Prop where
  | refl (cs : List Char) : Scans cs [] cs
  | cons {cs mid rest : List Char} {t : Token} {ts : List Token} :
      cs.dropWhile isGap ≠ [] → nextToken (cs.dropWhile isGap) = (t, mid) →
      mid.length < cs.length → Scans mid ts rest → Scans cs (t :: ts) rest

theorem Scans.append {cs mid rest : List Char} {ts us : List Token} (h : Scans cs ts mid)
    (h' : Scans mid us rest) : Scans cs (ts ++ us) rest := by
  induction h with
  | refl => exact h'
  | cons hne hnext hlt _ ih => exact .cons hne hnext hlt (ih h')

/-- One token in front of the rest. -/
theorem Scans.single {cs rest : List Char} {t : Token} (hne : cs.dropWhile isGap ≠ [])
    (h : nextToken (cs.dropWhile isGap) = (t, rest)) (hlt : rest.length < cs.length) :
    Scans cs [t] rest :=
  .cons hne h hlt (.refl rest)

/-- A gap in front of tokens is passed over. -/
theorem Scans.gap {cs rest : List Char} {t : Token} {ts : List Token}
    (h : Scans cs (t :: ts) rest) : Scans (' ' :: cs) (t :: ts) rest := by
  cases h with
  | cons hne hnext hlt hrest =>
    have hdrop : (' ' :: cs).dropWhile isGap = cs.dropWhile isGap := by
      rw [List.dropWhile_cons_of_pos (by decide)]
    exact .cons (hdrop ▸ hne) (hdrop ▸ hnext) (by simp only [List.length_cons]; omega) hrest

/-- **The scanner finds the tokens that are there**: enough fuel is one step more than
there are characters. -/
theorem map_token_tokens {cs rest : List Char} {ts : List Token} (h : Scans cs ts rest)
    (hrest : rest = []) {fuel : Nat} (hfuel : cs.length < fuel) :
    (tokens fuel cs).map Placed.token = ts := by
  induction h generalizing fuel with
  | refl cs =>
    subst hrest
    cases fuel with
    | zero => omega
    | succ fuel => rfl
  | @cons cs mid rest t ts hne hnext hlt _ ih =>
    cases fuel with
    | zero => omega
    | succ fuel =>
      have hgap : (fun c => c == ' ' || c == '\t') = isGap := rfl
      rw [tokens, hgap]
      cases hcs : cs.dropWhile isGap with
      | nil => exact absurd hcs hne
      | cons c ds =>
        rw [hcs] at hnext
        simp only [hnext, List.map_cons]
        rw [ih hrest (by omega)]

/-! ### Single tokens -/

/-- A text at whose start nothing is skipped. -/
theorem dropWhile_gap {c : Char} (hc : isGap c = false) (cs : List Char) :
    (c :: cs).dropWhile isGap = c :: cs :=
  List.dropWhile_cons_of_neg (by simp [hc])

theorem length_dropped (w rest : List Char) : rest.length < (w ++ rest).length + 1 := by
  rw [List.length_append]
  omega

theorem scans_of_next {c : Char} {cs rest : List Char} {t : Token} (hc : isGap c = false)
    (h : nextToken (c :: cs) = (t, rest)) (hlt : rest.length < cs.length + 1) :
    Scans (c :: cs) [t] rest := by
  refine .single ?_ ?_ (by simpa using hlt)
  · rw [dropWhile_gap hc]
    simp
  · rw [dropWhile_gap hc, h]

/-- A name as the tokens of grammar source allow it. -/
def IsName (s : String) : Prop :=
  ∃ c cs, s.toList = c :: cs ∧ isNameStart c = true ∧ ∀ d ∈ cs, isNamePart d = true

/-- A rest that does not go on with characters of a kind. -/
def Ends (p : Char → Bool) (rest : List Char) : Prop :=
  ∀ c cs, rest = c :: cs → p c = false

theorem takeWhile_append_ends {p : Char → Bool} {w rest : List Char} (hw : ∀ c ∈ w, p c = true)
    (hrest : Ends p rest) : (w ++ rest).takeWhile p = w ∧ (w ++ rest).dropWhile p = rest := by
  induction w with
  | nil =>
    cases rest with
    | nil => simp
    | cons c cs => simp [hrest c cs rfl]
  | cons c w ih =>
    have hc : p c = true := hw c (by simp)
    obtain ⟨htake, hdrop⟩ := ih fun d hd => hw d (by simp [hd])
    simp [hc, htake, hdrop]

theorem isGap_eq_false_of_isNameStart {c : Char} (hc : isNameStart c = true) :
    isGap c = false := by
  by_contra h
  simp only [isGap, Bool.not_eq_false, Bool.or_eq_true, beq_iff_eq] at h
  rcases h with rfl | rfl <;> exact absurd hc (by decide)

/-- **A name is scanned whole** where the rest does not go on with it. -/
theorem scans_name {s : String} (hs : IsName s) {rest : List Char} (hrest : Ends isNamePart rest) :
    Scans (s.toList ++ rest) [.name s] rest := by
  obtain ⟨c, cs, hlist, hc, hcs⟩ := hs
  obtain ⟨htake, hdrop⟩ := takeWhile_append_ends hcs hrest
  rw [hlist, List.cons_append]
  refine scans_of_next (isGap_eq_false_of_isNameStart hc) ?_ (length_dropped cs rest)
  rw [nextToken_name hc, htake, hdrop, ← hlist, String.ofList_toList]

/-- **A JSON literal is scanned whole**, whatever follows. -/
theorem scans_literal (s : String) (rest : List Char) :
    Scans ((JsonText.literal false s).toList ++ rest) [.literal (JsonText.literal false s)]
      rest := by
  have hlist : (JsonText.literal false s).toList ++ rest
      = '"' :: (JsonText.encode false s.toList ++ '"' :: rest) := by
    simp [JsonText.literal]
  rw [hlist]
  refine scans_of_next (by decide) ?_ ?_
  · rw [nextToken, quotedBody_literal]
    simp only [JsonText.literal]
  · simp only [List.length_append, List.length_cons]
    omega

/-- **A pattern between slashes is scanned whole**, whatever follows. -/
theorem scans_pattern {p : List Char} (hp : Slashed.Enclosable p) (hne : p ≠ [])
    (rest : List Char) :
    Scans ('/' :: (Slashed.encode p ++ '/' :: rest)) [.pattern (Slashed.encode p)] rest := by
  refine scans_of_next (by decide) ?_ ?_
  · have hbody := Slashed.encode_ne_nil hne
    rw [nextToken, quotedBody_encode hp]
    cases hb : Slashed.encode p with
    | nil => exact absurd hb hbody
    | cons c cs => rfl
  · simp only [List.length_append, List.length_cons]
    omega

theorem isGap_eq_false_of_isDigit {c : Char} (hc : c.isDigit = true) : isGap c = false := by
  by_contra h
  simp only [isGap, Bool.not_eq_false, Bool.or_eq_true, beq_iff_eq] at h
  rcases h with rfl | rfl <;> exact absurd hc (by decide)

theorem isNameStart_eq_false_of_isDigit {c : Char} (hc : c.isDigit = true) :
    isNameStart c = false := by
  have hrange : 48 ≤ c.toNat ∧ c.toNat ≤ 57 := by
    simpa [Char.isDigit, UInt32.le_iff_toNat_le] using hc
  have halpha : c.isAlpha = false := by
    have h1 : ¬ (65 ≤ c.toNat ∧ c.toNat ≤ 90) := by omega
    have h2 : ¬ (97 ≤ c.toNat ∧ c.toNat ≤ 122) := by omega
    by_contra h
    simp only [Bool.not_eq_false, Char.isAlpha, Char.isUpper, Char.isLower, Bool.or_eq_true,
      Bool.and_eq_true, decide_eq_true_eq, ge_iff_le, UInt32.le_iff_toNat_le] at h
    rcases h with h | h
    · exact h1 h
    · exact h2 h
  have hu : c ≠ '_' := by
    rintro rfl
    exact absurd hc (by decide)
  have hd : c ≠ '$' := by
    rintro rfl
    exact absurd hc (by decide)
  simp [isNameStart, halpha, hu, hd]

/-- **A number is scanned whole** where the rest does not go on with digits. -/
theorem scans_number (n : Nat) {rest : List Char} (hrest : Ends Char.isDigit rest) :
    Scans (Nat.toDigits 10 n ++ rest) [.number n] rest := by
  have hdigits : ∀ c ∈ Nat.toDigits 10 n, c.isDigit = true := fun c => Text.isDigit_of_mem_toDigits
  have hvalue := Text.digitsValue_toDigits n
  cases hd : Nat.toDigits 10 n with
  | nil => exact absurd hd Nat.toDigits_ne_nil
  | cons c cs =>
    rw [hd] at hdigits hvalue
    have hc := hdigits c (by simp)
    have hcs : ∀ d ∈ cs, d.isDigit = true := fun d h => hdigits d (by simp [h])
    obtain ⟨htake, hdrop⟩ := takeWhile_append_ends hcs hrest
    rw [List.cons_append]
    refine scans_of_next (isGap_eq_false_of_isDigit hc) ?_ (length_dropped cs rest)
    rw [nextToken_digit hc (isNameStart_eq_false_of_isDigit hc), htake, hdrop, hvalue]

/-- **A comment is scanned up to the end of its line.** -/
theorem scans_comment {cs : List Char} (hcs : '\n' ∉ cs) (rest : List Char) :
    Scans ('#' :: (cs ++ '\n' :: rest)) [.comment (String.ofList cs)] ('\n' :: rest) := by
  have hw : ∀ c ∈ cs, (c != '\n') = true := by
    intro c hc
    have hne : c ≠ '\n' := fun h => hcs (h ▸ hc)
    simpa using hne
  have hends : Ends (fun c => c != '\n') ('\n' :: rest) := by
    intro c ds h
    cases h
    decide
  obtain ⟨htake, hdrop⟩ := takeWhile_append_ends hw hends
  refine scans_of_next (by decide) ?_ (length_dropped cs _)
  rw [nextToken, htake, hdrop]

theorem scans_newline (rest : List Char) : Scans ('\n' :: rest) [.newline] rest :=
  scans_of_next (by decide) rfl (by simp)

theorem scans_bar (rest : List Char) : Scans ('|' :: rest) [.bar] rest :=
  scans_of_next (by decide) rfl (by simp)

theorem scans_equals (rest : List Char) : Scans ('=' :: rest) [.equals] rest :=
  scans_of_next (by decide) rfl (by simp)

theorem scans_arrow (rest : List Char) : Scans ('-' :: '>' :: rest) [.arrow] rest :=
  scans_of_next (by decide) rfl (length_dropped [_] rest)

theorem scans_actionStart (rest : List Char) :
    Scans ('\x7b' :: '%' :: rest) [.actionStart] rest :=
  scans_of_next (by decide) rfl (length_dropped [_] rest)

theorem scans_actionEnd (rest : List Char) :
    Scans ('%' :: '\x7d' :: rest) [.actionEnd] rest :=
  scans_of_next (by decide) rfl (length_dropped [_] rest)

theorem scans_startMark (rest : List Char) :
    Scans ("@start".toList ++ rest) [.startMark] rest :=
  scans_of_next (by decide) rfl (length_dropped "start".toList rest)

theorem scans_expressionsMark (rest : List Char) :
    Scans ("@expressions".toList ++ rest) [.expressionsMark] rest :=
  scans_of_next (by decide) rfl (length_dropped "expressions".toList rest)

end Covenant.Source
