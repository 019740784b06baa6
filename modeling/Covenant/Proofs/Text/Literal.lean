import Mathlib
import Covenant.Value.Json

/-!
JSON string literals: reading inverts writing.

* `decode_encode`: the body of a literal that ends with its quote is read back as the
  text it was written from, and the reader stops right after the quote.
* `Json.read_literal`: a whole literal is read as the JSON text value it stands for.
-/

namespace Covenant.JsonText

/-! ### Hexadecimal escapes -/

theorem hexValue_hexDigit : ∀ n, n < 16 → Text.hexValue? (Text.hexDigit n) = some n := by
  decide

theorem hexDigits_four (n : Nat) :
    Text.hexDigits 4 n = [Text.hexDigit (n / 16 / 16 / 16 % 16), Text.hexDigit (n / 16 / 16 % 16),
      Text.hexDigit (n / 16 % 16), Text.hexDigit (n % 16)] := by
  simp [Text.hexDigits]

theorem unit_hexDigits {n : Nat} (hn : n < 65536) {rest : List Char} (hrest : rest ≠ []) :
    unit? (Text.hexDigits 4 n ++ rest) = some (n, rest) := by
  have h0 := hexValue_hexDigit (n / 16 / 16 / 16 % 16) (by omega)
  have h1 := hexValue_hexDigit (n / 16 / 16 % 16) (by omega)
  have h2 := hexValue_hexDigit (n / 16 % 16) (by omega)
  have h3 := hexValue_hexDigit (n % 16) (by omega)
  have hvalue : ((n / 16 / 16 / 16 % 16 * 16 + n / 16 / 16 % 16) * 16 + n / 16 % 16) * 16 + n % 16
      = n := by omega
  rw [hexDigits_four]
  simp [unit?, h0, h1, h2, h3, hvalue, hrest]

/-- The codes of control characters need no escape of their own. -/
theorem hexDigits_plain {n : Nat} (hn : n < 32) : ∀ c ∈ Text.hexDigits 4 n,
    c ≠ '\\' ∧ c ≠ '"' ∧ c ≠ '\n' := by
  have hall : ∀ m < 32, (Text.hexDigits 4 m).all
      (fun c => c != '\\' && c != '"' && c != '\n') = true := by
    decide
  intro c hc
  have hplain := List.all_eq_true.mp (hall n hn) c hc
  simpa [and_assoc] using hplain

/-! ### One character -/

/-- A code that is no high surrogate is decoded by itself. -/
theorem decode_unit_single {cs rest : List Char} {n : Nat} (h : unit? cs = some (n, rest))
    (hn : ¬ (0xD800 ≤ n ∧ n < 0xDC00)) :
    decode ('\\' :: 'u' :: cs) = (decode rest).map fun r =>
      ((if 0xDC00 ≤ n ∧ n < 0xE000 then '\uFFFD' else Char.ofNat n) :: r.1, r.2) := by
  rw [decode]
  split
  · rename_i hunit
    cases h.symm.trans hunit
  · rename_i n' rest' hunit
    cases h.symm.trans hunit
    rw [if_neg hn]

/-- A high surrogate is decoded along with a low one that follows it. -/
theorem decode_unit_pair {cs rest : List Char} {n m : Nat} {tail : List Char} (h : unit? cs = some (n, rest))
    (hn : 0xD800 ≤ n ∧ n < 0xDC00) (hlow : lowSurrogate? rest = some (m, tail)) :
    decode ('\\' :: 'u' :: cs) = (decode tail).map fun r =>
      (Char.ofNat (0x10000 + (n - 0xD800) * 0x400 + (m - 0xDC00)) :: r.1, r.2) := by
  rw [decode]
  split
  · rename_i hunit
    cases h.symm.trans hunit
  · rename_i n' rest' hunit
    cases h.symm.trans hunit
    rw [if_pos hn]
    split
    · rename_i m' tail' hlow'
      cases hlow.symm.trans hlow'
      rfl
    · rename_i hlow'
      cases hlow.symm.trans hlow'

/-- A code that is no surrogate is read back by itself. -/
theorem decode_escapeUnit {n : Nat} (hn : n < 0x10000) (hsingle : ¬ (0xD800 ≤ n ∧ n < 0xE000))
    {rest : List Char} (hrest : rest ≠ []) :
    decode (escapeUnit n ++ rest) = (decode rest).map fun r => (Char.ofNat n :: r.1, r.2) := by
  rw [escapeUnit, List.cons_append, List.cons_append,
    decode_unit_single (unit_hexDigits hn hrest) (by omega), if_neg (by omega)]

/-- The surrogates of a character above the others are read back together. -/
theorem decode_surrogates {n : Nat} (hn : n < 0x100000) {rest : List Char} (hrest : rest ≠ []) :
    decode (escapeUnit (0xD800 + n / 0x400) ++ escapeUnit (0xDC00 + n % 0x400) ++ rest) =
      (decode rest).map fun r => (Char.ofNat (0x10000 + n) :: r.1, r.2) := by
  have hlow : lowSurrogate? (escapeUnit (0xDC00 + n % 0x400) ++ rest) =
      some (0xDC00 + n % 0x400, rest) := by
    have hunit := @unit_hexDigits (0xDC00 + n % 0x400) (by omega) rest hrest
    have hbound : 0xDC00 + n % 0x400 < 0xE000 := by omega
    simp [escapeUnit, lowSurrogate?, hunit, hbound]
  have hcode : 0x10000 + (0xD800 + n / 0x400 - 0xD800) * 0x400 + (0xDC00 + n % 0x400 - 0xDC00)
      = 0x10000 + n := by omega
  rw [List.append_assoc, escapeUnit, List.cons_append, List.cons_append,
    decode_unit_pair (unit_hexDigits (by omega) (by simp [hrest])) (by omega) hlow, hcode]

/-- A character is read back from its units. -/
theorem decode_escapeUnits (c : Char) {rest : List Char} (hrest : rest ≠ []) :
    decode (escapeUnits c ++ rest) = (decode rest).map fun r => (c :: r.1, r.2) := by
  have hvalid : c.toNat < 0xD800 ∨ (0xDFFF < c.toNat ∧ c.toNat < 0x110000) := c.valid
  unfold escapeUnits
  split
  · rw [decode_escapeUnit ‹_› (by omega) hrest, Char.ofNat_toNat]
  · have hcode : 0x10000 + (c.toNat - 0x10000) = c.toNat := by omega
    rw [decode_surrogates (by omega) hrest, hcode, Char.ofNat_toNat]

theorem decode_plain {c : Char} (hq : c ≠ '"') (hb : c ≠ '\\') (hc : ¬ c.toNat < 32)
    (rest : List Char) :
    decode (c :: rest) = (decode rest).map fun r => (c :: r.1, r.2) := by
  rw [decode]
  · rw [if_neg hc]
  · exact hq
  · exact fun h => absurd h hb
  · exact fun _ h => absurd h hb
  · exact fun _ _ h => absurd h hb

theorem decode_short {c d : Char} (hu : c ≠ 'u') (hd : unescape? c = some d) (rest : List Char) :
    decode ('\\' :: c :: rest) = (decode rest).map fun r => (d :: r.1, r.2) := by
  rw [decode]
  · rw [hd]
  · exact hu

/-- A character is written by a backslash and a letter, by its code if it is another
control character, and as it is otherwise. -/
theorem escape_cases (c : Char) :
    (∃ d, d ≠ 'u' ∧ unescape? d = some c ∧ escape false c = ['\\', d]) ∨
      (c.toNat < 32 ∧ escape false c = escapeUnit c.toNat) ∨
      (c ≠ '"' ∧ c ≠ '\\' ∧ ¬ c.toNat < 32 ∧ escape false c = [c]) := by
  unfold escape
  split
  · subst_vars; exact .inl ⟨'"', by decide, rfl, rfl⟩
  split
  · subst_vars; exact .inl ⟨'\\', by decide, rfl, rfl⟩
  split
  · subst_vars; exact .inl ⟨'n', by decide, rfl, rfl⟩
  split
  · subst_vars; exact .inl ⟨'r', by decide, rfl, rfl⟩
  split
  · subst_vars; exact .inl ⟨'t', by decide, rfl, rfl⟩
  split
  · subst_vars; exact .inl ⟨'b', by decide, rfl, rfl⟩
  split
  · subst_vars; exact .inl ⟨'f', by decide, rfl, rfl⟩
  split
  · rename_i hc
    exact .inr (.inl ⟨hc, rfl⟩)
  · rename_i hq hb _ _ _ _ _ hc
    exact .inr (.inr ⟨hq, hb, hc, rfl⟩)

/-- With `ascii`, some more characters are written by their units. -/
theorem escape_eq_or (ascii : Bool) (c : Char) :
    escape ascii c = escape false c ∨ escape ascii c = escapeUnits c := by
  unfold escape
  repeat' split
  all_goals simp_all

/-- **Reading one escaped character** puts that character in front of what follows.
Something always follows: at least the closing quote. -/
theorem decode_escape {ascii : Bool} (c : Char) {rest : List Char} (hrest : rest ≠ []) :
    decode (escape ascii c ++ rest) = (decode rest).map fun r => (c :: r.1, r.2) := by
  rcases escape_eq_or ascii c with he | he
  · rcases escape_cases c with ⟨d, hu, hd, he'⟩ | ⟨hc, he'⟩ | ⟨hq, hb, hc, he'⟩ <;> rw [he, he']
    · exact decode_short hu hd rest
    · rw [decode_escapeUnit (by omega) (by omega) hrest, Char.ofNat_toNat]
    · exact decode_plain hq hb hc rest
  · rw [he]
    exact decode_escapeUnits c hrest

/-- **Reading inverts writing** up to the closing quote. -/
theorem decode_encode {ascii : Bool} (cs rest : List Char) :
    decode (encode ascii cs ++ '"' :: rest) = .ok (cs, rest) := by
  induction cs with
  | nil =>
    rw [encode, List.flatMap_nil, List.nil_append, decode]
  | cons c cs ih =>
    have hne : encode ascii cs ++ '"' :: rest ≠ [] := by simp
    rw [encode, List.flatMap_cons, List.append_assoc]
    rw [decode_escape c (by exact hne)]
    rw [show cs.flatMap (escape ascii) = encode ascii cs from rfl, ih]
    rfl

end Covenant.JsonText

namespace Covenant.Json

theorem skip_quote (cs : List Char) : skip ('"' :: cs) = '"' :: cs := by
  simp [skip, isSpace]

theorem readString_encode {ascii : Bool} (cs rest : List Char) :
    readString (JsonText.encode ascii cs ++ '"' :: rest) = .ok (String.ofList cs, rest) := by
  simp [readString, JsonText.decode_encode]

/-- **A literal is read as the text it was written from.** -/
theorem read_literal {ascii : Bool} (s : String) :
    read (JsonText.literal ascii s) = .ok (.text s) := by
  have hchars : (JsonText.literal ascii s).toList
      = '"' :: (JsonText.encode ascii s.toList ++ '"' :: []) := by
    simp [JsonText.literal]
  have hread : readChars (JsonText.literal ascii s).toList = .ok (.text s) := by
    rw [hchars]
    unfold readChars
    split
    · rename_i h
      cases h
    · rw [skip_quote]
      simp only [List.length_cons, Nat.mul_add, Nat.mul_one]
      rw [readValue]
      simp [readString_encode, Except.map, bind, Except.bind, skip, pure, Except.pure]
  unfold read
  rw [hread]

end Covenant.Json
