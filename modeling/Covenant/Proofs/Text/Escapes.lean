import Covenant.Proofs.Text.Literal

/-!
What may stand between the quotes of a JSON string.

* `IsQuoted`: characters and pairs of a backslash with a character.
* `IsBody`: the same, without control characters and with the escapes that JSON knows.
* `decodes_iff`: a quoted text is decoded iff it is a body.
* `Json.read_quoted`: a literal is read iff there is a body between its quotes.
-/

namespace Covenant.JsonText

/-! ### Texts between quotes -/

/-- **A text between quotes**: characters other than quotes, and pairs of a backslash with a
character of the same line. -/
inductive IsQuoted : List Char → Prop where
  | nil : IsQuoted []
  | plain {c : Char} {cs : List Char} (hquote : c ≠ '"') (hescape : c ≠ '\\') (h : IsQuoted cs) :
      IsQuoted (c :: cs)
  | escape {c : Char} {cs : List Char} (h : IsQuoted cs) : IsQuoted ('\\' :: c :: cs)

/-- **The body of a JSON string**: characters from the blank on other than quotes, escapes by a
letter, and escapes by four hexadecimal digits. -/
inductive IsBody : List Char → Prop where
  | nil : IsBody []
  | plain {c : Char} {cs : List Char} (hquote : c ≠ '"') (hescape : c ≠ '\\')
      (hcontrol : ¬ c.toNat < 32) (h : IsBody cs) : IsBody (c :: cs)
  | short {c : Char} {cs : List Char} (hletter : (unescape? c).isSome) (h : IsBody cs) :
      IsBody ('\\' :: c :: cs)
  | unit {w x y z : Char} {cs : List Char}
      (hdigits : ∀ c ∈ [w, x, y, z], (Text.hexValue? c).isSome) (h : IsBody cs) :
      IsBody ('\\' :: 'u' :: w :: x :: y :: z :: cs)

variable {c : Char} {cs rest : List Char}

theorem isQuoted_plain_iff (hquote : c ≠ '"') (hescape : c ≠ '\\') :
    IsQuoted (c :: cs) ↔ IsQuoted cs := by
  constructor
  · intro h
    cases h with
    | plain _ _ h => exact h
    | escape h => exact absurd rfl hescape
  · exact .plain hquote hescape

theorem isBody_plain_iff (hquote : c ≠ '"') (hescape : c ≠ '\\') :
    IsBody (c :: cs) ↔ ¬ c.toNat < 32 ∧ IsBody cs := by
  constructor
  · intro h
    cases h with
    | plain _ _ hcontrol h => exact ⟨hcontrol, h⟩
    | short _ h => exact absurd rfl hescape
    | unit _ h => exact absurd rfl hescape
  · exact fun h => .plain hquote hescape h.1 h.2

theorem isBody_short_iff (hunit : c ≠ 'u') :
    IsBody ('\\' :: c :: cs) ↔ (unescape? c).isSome ∧ IsBody cs := by
  constructor
  · intro h
    cases h with
    | plain _ hescape _ _ => exact absurd rfl hescape
    | short hletter h => exact ⟨hletter, h⟩
    | unit _ h => exact absurd rfl hunit
  · exact fun h => .short h.1 h.2

theorem isBody_unit_iff : IsBody ('\\' :: 'u' :: cs) ↔
    ∃ w x y z rest, (∀ c ∈ [w, x, y, z], (Text.hexValue? c).isSome) ∧
      cs = w :: x :: y :: z :: rest ∧ IsBody rest := by
  constructor
  · intro h
    cases h with
    | plain _ hescape _ _ => exact absurd rfl hescape
    | short hletter _ => cases hletter
    | unit hdigits h => exact ⟨_, _, _, _, _, hdigits, rfl, h⟩
  · rintro ⟨w, x, y, z, rest, hdigits, rfl, h⟩
    exact .unit hdigits h

/-! ### Decoding -/

/-- A text begins with the end of a literal, and what follows it. -/
def Decodes (cs rest : List Char) : Prop :=
  ∃ text, decode cs = .ok (text, rest)

theorem decodes_of_map {cs' : List Char} {d : Char}
    (h : decode cs = (decode cs').map fun r => (d :: r.1, r.2)) :
    Decodes cs rest ↔ Decodes cs' rest := by
  rw [Decodes, Decodes, h]
  cases hcs' : decode cs' with
  | error e => simp [Except.map]
  | ok r =>
    simp only [Except.map, Except.ok.injEq]
    constructor
    · rintro ⟨text, h⟩
      obtain ⟨rfl, rfl⟩ := Prod.mk.inj h
      exact ⟨r.1, rfl⟩
    · rintro ⟨text, rfl⟩
      exact ⟨_, rfl⟩

theorem not_decodes_of_error {e : Fault × Nat} (h : decode cs = .error e) : ¬ Decodes cs rest := by
  rintro ⟨text, htext⟩
  cases h.symm.trans htext

theorem unit_eq_some_iff {n : Nat} : unit? cs = some (n, rest) ↔
    ∃ w x y z, cs = w :: x :: y :: z :: rest ∧ rest ≠ [] ∧ ∃ a b c d, Text.hexValue? w = some a ∧
      Text.hexValue? x = some b ∧ Text.hexValue? y = some c ∧ Text.hexValue? z = some d ∧
        n = ((a * 16 + b) * 16 + c) * 16 + d := by
  constructor
  · intro h
    unfold unit? at h
    split at h
    · simp only [Option.bind_eq_bind, Option.bind_eq_some_iff] at h
      obtain ⟨a, ha, b, hb, c, hc, d, hd, h⟩ := h
      split at h
      · simp at h
      · simp only [Option.pure_def, Option.some.injEq, Prod.mk.injEq] at h
        obtain ⟨rfl, rfl⟩ := h
        exact ⟨_, _, _, _, rfl, by simp_all, a, b, c, d, ha, hb, hc, hd, rfl⟩
    · cases h
  · rintro ⟨w, x, y, z, rfl, hrest, a, b, c, d, ha, hb, hc, hd, rfl⟩
    simp [unit?, ha, hb, hc, hd, hrest]

theorem decode_unit_none (h : unit? cs = none) :
    decode ('\\' :: 'u' :: cs) = .error (.unit, cs.length + 1) := by
  rw [decode]
  split
  · rfl
  · rename_i n rest hunit
    cases h.symm.trans hunit

theorem lowSurrogate_eq_some {n : Nat} (h : lowSurrogate? cs = some (n, rest)) :
    ∃ cs', cs = '\\' :: 'u' :: cs' ∧ unit? cs' = some (n, rest) ∧ ¬ (0xD800 ≤ n ∧ n < 0xDC00) := by
  unfold lowSurrogate? at h
  split at h
  · simp only [Option.bind_eq_bind, Option.bind_eq_some_iff] at h
    obtain ⟨⟨m, r⟩, hunit, h⟩ := h
    split at h
    · cases h
      exact ⟨_, rfl, hunit, by omega⟩
    · cases h
  · cases h

theorem exists_of_brokenPair (h : brokenPair cs = true) :
    ∃ cs', cs = '\\' :: 'u' :: cs' ∧ unit? cs' = none := by
  unfold brokenPair at h
  split at h
  · refine ⟨_, rfl, ?_⟩
    rw [Option.eq_none_iff_forall_ne_some]
    rintro ⟨n, rest⟩ hunit
    obtain ⟨w, x, y, z, hcs, -, a, b, c, d, ha, hb, hc, hd, -⟩ := unit_eq_some_iff.mp hunit
    cases hcs
    simp [ha, hb, hc, hd] at h
  · cases h

/-- A high surrogate stands alone if no low one follows it, unless a broken escape does. -/
theorem decode_unit_lone {n : Nat} (h : unit? cs = some (n, rest)) (hn : 0xD800 ≤ n ∧ n < 0xDC00)
    (hlow : lowSurrogate? rest = none) : decode ('\\' :: 'u' :: cs) =
      if brokenPair rest then .error (.unit, rest.length - 1)
      else (decode rest).map fun r => ('\uFFFD' :: r.1, r.2) := by
  rw [decode]
  split
  · rename_i hunit
    cases h.symm.trans hunit
  · rename_i n' rest' hunit
    cases h.symm.trans hunit
    rw [if_pos hn]
    split
    · rename_i m tail hlow'
      cases hlow.symm.trans hlow'
    · rfl

/-- **An escape by its code** is decoded as what follows it: a surrogate after a high one is
decoded along with it as it would be by itself. -/
theorem decodes_unit {n : Nat} (h : unit? cs = some (n, rest)) {tail : List Char} :
    Decodes ('\\' :: 'u' :: cs) tail ↔ Decodes rest tail := by
  by_cases hn : 0xD800 ≤ n ∧ n < 0xDC00
  · cases hlow : lowSurrogate? rest with
    | some pair =>
      obtain ⟨cs', rfl, hunit, hm⟩ := lowSurrogate_eq_some hlow
      rw [decodes_of_map (decode_unit_pair h hn hlow), decodes_of_map (decode_unit_single hunit hm)]
    | none =>
      have hdecode := decode_unit_lone h hn hlow
      split at hdecode
      · rename_i hbroken
        obtain ⟨cs', rfl, hunit⟩ := exists_of_brokenPair hbroken
        exact iff_of_false (not_decodes_of_error hdecode)
          (not_decodes_of_error (decode_unit_none hunit))
      · exact decodes_of_map hdecode
  · exact decodes_of_map (decode_unit_single h hn)

/-! ### Bodies -/

theorem plain_of_hexValue {c : Char} (h : (Text.hexValue? c).isSome) : c ≠ '"' ∧ c ≠ '\\' := by
  constructor
  · rintro rfl
    cases h
  · rintro rfl
    cases h

theorem decode_control (hquote : c ≠ '"') (hescape : c ≠ '\\') (hc : c.toNat < 32) :
    decode (c :: cs) = .error (.control, cs.length + 1) := by
  rw [decode]
  · rw [if_pos hc]
  · exact hquote
  · exact fun h => absurd h hescape
  · exact fun _ h => absurd h hescape
  · exact fun _ _ h => absurd h hescape

theorem decode_unknown (hunit : c ≠ 'u') (hletter : unescape? c = none) :
    decode ('\\' :: c :: cs) = .error (.escape, cs.length + 2) := by
  rw [decode]
  · rw [hletter]
  · exact hunit

/-- Four hexadecimal digits between quotes. -/
theorem unit_append_quote {n : Nat} (h : unit? (cs ++ ['"']) = some (n, rest)) :
    ∃ w x y z cs', cs = w :: x :: y :: z :: cs' ∧ rest = cs' ++ ['"'] ∧
      ∀ c ∈ [w, x, y, z], (Text.hexValue? c).isSome := by
  obtain ⟨w, x, y, z, hcs, hrest, a, b, c, d, ha, hb, hc, hd, -⟩ := unit_eq_some_iff.mp h
  obtain ⟨cs', last, rfl⟩ := (List.eq_nil_or_concat rest).resolve_left hrest
  have hsplit : cs ++ ['"'] = (w :: x :: y :: z :: cs') ++ [last] := by simpa using hcs
  obtain ⟨rfl, hlast⟩ := List.append_inj' hsplit rfl
  refine ⟨w, x, y, z, cs', rfl, by simpa using hlast.symm, ?_⟩
  simp [ha, hb, hc, hd]

/-- Some digits are read where a body has an escape by its code. -/
theorem unit_of_isBody (h : IsBody ('\\' :: 'u' :: cs)) : unit? (cs ++ ['"']) ≠ none := by
  obtain ⟨w, x, y, z, rest, hdigits, rfl, -⟩ := isBody_unit_iff.mp h
  simp only [List.forall_mem_cons, Option.isSome_iff_exists] at hdigits
  obtain ⟨⟨a, ha⟩, ⟨b, hb⟩, ⟨c, hc⟩, ⟨d, hd⟩, -⟩ := hdigits
  have hsome : unit? (w :: x :: y :: z :: (rest ++ ['"'])) = _ :=
    unit_eq_some_iff.mpr ⟨w, x, y, z, rfl, by simp, a, b, c, d, ha, hb, hc, hd, rfl⟩
  simp [hsome]

/-- Four digits go on with the body of a text as they do without them. -/
theorem isQuoted_digits_iff {w x y z : Char}
    (hdigits : ∀ d ∈ [w, x, y, z], (Text.hexValue? d).isSome) :
    IsQuoted (w :: x :: y :: z :: cs) ↔ IsQuoted cs := by
  have hplain : ∀ d ∈ [w, x, y, z], d ≠ '"' ∧ d ≠ '\\' := fun d hd =>
    plain_of_hexValue (hdigits d hd)
  simp only [List.forall_mem_cons] at hplain
  obtain ⟨⟨hw, hw'⟩, ⟨hx, hx'⟩, ⟨hy, hy'⟩, ⟨hz, hz'⟩, -⟩ := hplain
  rw [isQuoted_plain_iff hw hw', isQuoted_plain_iff hx hx', isQuoted_plain_iff hy hy',
    isQuoted_plain_iff hz hz']

/-- An escape by a code that is one goes on as what follows it. -/
theorem isBody_code_iff {w x y z : Char}
    (hdigits : ∀ d ∈ [w, x, y, z], (Text.hexValue? d).isSome) :
    IsBody ('\\' :: 'u' :: w :: x :: y :: z :: cs) ↔ IsBody cs := by
  refine ⟨fun hbody => ?_, .unit hdigits⟩
  obtain ⟨_, _, _, _, _, -, hcs, hbody⟩ := isBody_unit_iff.mp hbody
  cases hcs
  exact hbody

/-- **A quoted text is decoded** up to its closing quote iff it is a body. -/
theorem decodes_iff (h : IsQuoted cs) {tail : List Char} :
    Decodes (cs ++ ['"']) tail ↔ IsBody cs ∧ tail = [] := by
  -- an escape by its code takes four characters more than its first two, so the induction is
  -- on the length
  induction hn : cs.length using Nat.strong_induction_on generalizing cs with
  | _ n ih =>
    subst hn
    cases h with
    | nil =>
      have hdecode : decode ['"'] = .ok ([], []) := by rw [decode]
      constructor
      · rintro ⟨text, h⟩
        cases hdecode.symm.trans h
        exact ⟨.nil, rfl⟩
      · rintro ⟨-, rfl⟩
        exact ⟨[], hdecode⟩
    | @plain c cs hquote hescape h =>
      rw [List.cons_append, isBody_plain_iff hquote hescape]
      by_cases hc : c.toNat < 32
      · exact iff_of_false (not_decodes_of_error (decode_control hquote hescape hc))
          fun hbody => hbody.1.1 hc
      · rw [decodes_of_map (decode_plain hquote hescape hc _), ih cs.length (by simp) h rfl]
        simp [hc]
    | @escape c cs h =>
      rw [List.cons_append, List.cons_append]
      by_cases hunit : c = 'u'
      · subst hunit
        cases hcode : unit? (cs ++ ['"']) with
        | none =>
          exact iff_of_false (not_decodes_of_error (decode_unit_none hcode))
            fun hbody => unit_of_isBody hbody.1 hcode
        | some pair =>
          obtain ⟨n, rest⟩ := pair
          obtain ⟨w, x, y, z, cs', rfl, rfl, hdigits⟩ := unit_append_quote hcode
          rw [decodes_unit hcode, ih cs'.length (by simp; omega)
            ((isQuoted_digits_iff hdigits).mp h) rfl, isBody_code_iff hdigits]
      · rw [isBody_short_iff hunit]
        cases hletter : unescape? c with
        | none =>
          exact iff_of_false (not_decodes_of_error (decode_unknown hunit hletter)) (by simp)
        | some d =>
          rw [decodes_of_map (decode_short hunit hletter _), ih cs.length (by simp) h rfl]
          simp

end Covenant.JsonText

namespace Covenant.Json

open JsonText

variable {cs : List Char}

theorem readChars_quote_ok {text : String} (h : readString cs = .ok (text, [])) :
    readChars ('"' :: cs) = .ok (.text text) := by
  unfold readChars
  split
  · rename_i h
    cases h
  · rw [skip_quote]
    simp only [List.length_cons, Nat.mul_add, Nat.mul_one]
    rw [readValue, h]
    rfl

theorem readChars_quote_error {e : Trouble} (h : readString cs = .error e) :
    readChars ('"' :: cs) = .error e := by
  unfold readChars
  split
  · rename_i h
    cases h
  · rw [skip_quote]
    simp only [List.length_cons, Nat.mul_add, Nat.mul_one]
    rw [readValue, h]
    rfl

/-- **A literal is read** iff there is a body between its quotes. -/
theorem read_quoted (h : IsQuoted cs) :
    (IsBody cs ∧ ∃ text, read (String.ofList ('"' :: (cs ++ ['"']))) = .ok (.text text)) ∨
      (¬ IsBody cs ∧ ∃ f, read (String.ofList ('"' :: (cs ++ ['"']))) = .error f ∧
        f.issue ≠ .longNumeral) := by
  by_cases hbody : IsBody cs
  · obtain ⟨text, hdecode⟩ := (decodes_iff h).mpr ⟨hbody, rfl⟩
    refine .inl ⟨hbody, String.ofList text, ?_⟩
    have hread : readString (cs ++ ['"']) = .ok (String.ofList text, []) := by
      rw [readString, hdecode]
    rw [read, String.toList_ofList, readChars_quote_ok hread]
  · refine .inr ⟨hbody, ?_⟩
    have hnone : ∀ r, decode (cs ++ ['"']) ≠ .ok r := fun r hr =>
      hbody ((decodes_iff h).mp ⟨r.1, hr⟩).1
    cases hdecode : decode (cs ++ ['"']) with
    | ok r => exact absurd hdecode (hnone r)
    | error e =>
      obtain ⟨fault, left⟩ := e
      have hread : ∃ left, readString (cs ++ ['"']) = .error (.literal fault, left) := by
        rw [readString, hdecode]
        cases fault <;> exact ⟨_, rfl⟩
      obtain ⟨left, hread⟩ := hread
      refine ⟨_, by rw [read, String.toList_ofList, readChars_quote_error hread], ?_⟩
      simp

end Covenant.Json
