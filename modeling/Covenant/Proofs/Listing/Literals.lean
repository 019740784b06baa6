import Covenant.Grammar.Listing
import Covenant.Proofs.Pattern.Assembly
import Covenant.Proofs.Source.Slashes

/-!
Literals as regular expressions.

* `escapeLiteral_cases`: how a character of a literal is written.
* `decodeLiteral`: what the body of an expression spells out; `decodeLiteral_escapeLiteral`: that is
  the literal.
* `spelling_escapeLiteral`: read as a regular expression, each character stands for itself.
* `literalRegex_exact`: so the expression of a literal is well formed, tells its text, and matches
  that text and no other.
-/

namespace Covenant.Listing

open Covenant.Slashed (pieces)

/-! ### One character -/

def specials : List Char :=
  "\\.^$*+?\x7b\x7d[]()|/".toList

theorem isSpecial_iff {c : Char} : isSpecial c = true ↔ c ∈ specials :=
  List.contains_iff_mem

/-- **How a character is written**: a special one after a backslash, three control characters by
a letter, the double quote and the other control characters by their code, and any other as it is. -/
theorem escapeLiteral_cases (c : Char) :
    isSpecial c = true ∧ escapeLiteral c = ['\\', c] ∨
    (∃ d ∈ ['n', 'r', 't'], Pattern.controlEscape? d = some c ∧ escapeLiteral c = ['\\', d]) ∨
    (c.toNat < 256 ∧ escapeLiteral c =
      ['\\', 'x', Text.hexDigit (c.toNat / 16), Text.hexDigit (c.toNat % 16)]) ∨
    isSpecial c = false ∧ c ≠ '"' ∧ 32 ≤ c.toNat ∧ escapeLiteral c = [c] := by
  unfold escapeLiteral
  split
  · exact .inl ⟨‹_›, rfl⟩
  rename_i hspecial
  split
  · rename_i hc
    exact .inr (.inl ⟨'n', by simp, by rw [hc]; rfl, rfl⟩)
  split
  · rename_i hc
    exact .inr (.inl ⟨'r', by simp, by rw [hc]; rfl, rfl⟩)
  split
  · rename_i hc
    exact .inr (.inl ⟨'t', by simp, by rw [hc]; rfl, rfl⟩)
  split
  · rename_i hcode
    have hlt : c.toNat < 256 := by
      rcases hcode with rfl | hcode
      · decide
      · omega
    refine .inr (.inr (.inl ⟨hlt, ?_⟩))
    rw [Text.hexDigits, Text.hexDigits, Text.hexDigits, Nat.mod_eq_of_lt (by omega)]
    rfl
  · rename_i hplain
    rw [not_or] at hplain
    exact .inr (.inr (.inr ⟨by simpa using hspecial, hplain.1, by omega, rfl⟩))

/-- The two digits of a code below 256. -/
theorem hexValue_code {n : Nat} (hn : n < 256) :
    Text.hexValue? (Text.hexDigit (n / 16)) = some (n / 16) ∧
      Text.hexValue? (Text.hexDigit (n % 16)) = some (n % 16) :=
  ⟨JsonText.hexValue_hexDigit _ (by omega), JsonText.hexValue_hexDigit _ (by omega)⟩

theorem hexDigit_plain : ∀ n < 16, isSpecial (Text.hexDigit n) = false ∧ Text.hexDigit n ≠ '"' ∧
    32 ≤ (Text.hexDigit n).toNat := by
  decide

theorem ne_backslash_of_plain {c : Char} (h : isSpecial c = false) : c ≠ '\\' := by
  rintro rfl
  cases h

/-! ### What is written -/

/-- **No special character is bare** in the body of an expression. -/
theorem plain_of_bare {ts : List Char} {c : Char}
    (h : [c] ∈ pieces (ts.flatMap escapeLiteral)) : isSpecial c = false := by
  induction ts with
  | nil => cases h
  | cons t ts ih =>
    rw [List.flatMap_cons] at h
    rcases escapeLiteral_cases t with ⟨_, ht⟩ | ⟨d, _, _, ht⟩ | ⟨hlt, ht⟩ | ⟨hplain, _, _, ht⟩
    · rw [ht, List.cons_append, List.singleton_append, Slashed.pieces] at h
      exact ih ((List.mem_cons.mp h).resolve_left (by simp))
    · rw [ht, List.cons_append, List.singleton_append, Slashed.pieces] at h
      exact ih ((List.mem_cons.mp h).resolve_left (by simp))
    · obtain ⟨hhigh, -⟩ := hexDigit_plain (t.toNat / 16) (by omega)
      obtain ⟨hlow, -⟩ := hexDigit_plain (t.toNat % 16) (by omega)
      rw [ht, List.cons_append, List.cons_append, List.cons_append, List.singleton_append,
        Slashed.pieces, Slashed.pieces_cons_plain (ne_backslash_of_plain hhigh),
        Slashed.pieces_cons_plain (ne_backslash_of_plain hlow)] at h
      rcases List.mem_cons.mp ((List.mem_cons.mp h).resolve_left (by simp)) with h | h
      · rwa [List.singleton_injective h]
      rcases List.mem_cons.mp h with h | h
      · rwa [List.singleton_injective h]
      · exact ih h
    · rw [ht, List.singleton_append,
        Slashed.pieces_cons_plain (ne_backslash_of_plain hplain)] at h
      rcases List.mem_cons.mp h with h | h
      · rwa [List.singleton_injective h]
      · exact ih h

/-- **Neither double quotes nor control characters** are written. -/
theorem shown_of_mem_body {ts : List Char} {c : Char} (h : c ∈ ts.flatMap escapeLiteral) :
    c ≠ '"' ∧ 32 ≤ c.toNat := by
  obtain ⟨t, -, h⟩ := List.mem_flatMap.mp h
  have hspecial : ∀ t, isSpecial t = true → t ≠ '"' ∧ 32 ≤ t.toNat := by
    have hall : (specials.all fun t => t != '"' && decide (32 ≤ t.toNat)) =
        true := by decide
    intro t ht
    simpa using List.all_eq_true.mp hall t (isSpecial_iff.mp ht)
  have hletter : ∀ d ∈ ['\\', 'x', 'n', 'r', 't'], d ≠ '"' ∧ 32 ≤ d.toNat := by simp
  rcases escapeLiteral_cases t with ⟨ht, hwrite⟩ | ⟨d, hd, _, hwrite⟩ | ⟨hlt, hwrite⟩ |
    ⟨_, hquote, hcontrol, hwrite⟩
  · rw [hwrite, List.mem_cons, List.mem_singleton] at h
    rcases h with rfl | rfl
    · exact hletter _ (by simp)
    · exact hspecial _ ht
  · rw [hwrite, List.mem_cons, List.mem_singleton] at h
    rcases h with rfl | rfl
    · exact hletter _ (by simp)
    · exact hletter _ (by simp_all)
  · rw [hwrite] at h
    simp only [List.mem_cons, List.not_mem_nil, or_false] at h
    rcases h with rfl | rfl | rfl | rfl
    · exact hletter _ (by simp)
    · exact hletter _ (by simp)
    · exact (hexDigit_plain _ (by omega)).2
    · exact (hexDigit_plain _ (by omega)).2
  · rw [hwrite, List.mem_singleton] at h
    exact h ▸ ⟨hquote, hcontrol⟩

/-! ### What the body spells out -/

/-- **The text that the body of an expression spells out**: a backslash makes a special character
plain, a letter a line break or tab, and two hexadecimal digits after an `x` the character of that
code. Anything else stands for itself. -/
def decodeLiteral : List Char → List Char
  | [] => []
  | '\\' :: 'x' :: high :: low :: cs =>
    match Text.hexValue? high, Text.hexValue? low with
    | some m, some n => Char.ofNat (16 * m + n) :: decodeLiteral cs
    | _, _ => '\\' :: decodeLiteral ('x' :: high :: low :: cs)
  | '\\' :: c :: cs =>
    if isSpecial c then c :: decodeLiteral cs
    else if c = 'n' then '\n' :: decodeLiteral cs
    else if c = 'r' then '\r' :: decodeLiteral cs
    else if c = 't' then '\t' :: decodeLiteral cs
    else '\\' :: decodeLiteral (c :: cs)
  | c :: cs => c :: decodeLiteral cs

/-- **What is written for a character spells it out.** -/
theorem decodeLiteral_escape (c : Char) (rest : List Char) :
    decodeLiteral (escapeLiteral c ++ rest) = c :: decodeLiteral rest := by
  rcases escapeLiteral_cases c with ⟨hspecial, hwrite⟩ | ⟨d, hd, hc, hwrite⟩ | ⟨hlt, hwrite⟩ |
    ⟨hplain, _, _, hwrite⟩
  · rw [hwrite, List.cons_append, List.singleton_append, decodeLiteral, if_pos hspecial]
    rintro _ _ _ rfl
    cases hspecial
  · simp only [List.mem_cons, List.not_mem_nil, or_false] at hd
    rcases hd with rfl | rfl | rfl
    all_goals
      cases hc
      rw [hwrite]
      rfl
  · obtain ⟨hhigh, hlow⟩ := hexValue_code hlt
    rw [hwrite, List.cons_append, List.cons_append, List.cons_append, List.singleton_append,
      decodeLiteral, hhigh, hlow]
    simp only [Nat.div_add_mod, Char.ofNat_toNat]
  · have hne := ne_backslash_of_plain hplain
    rw [hwrite, List.singleton_append, decodeLiteral]
    · exact fun _ _ _ h => absurd h hne
    · exact fun _ _ h => absurd h hne

/-- **The body of a literal's expression spells out the literal.** -/
theorem decodeLiteral_escapeLiteral (ts : List Char) :
    decodeLiteral (ts.flatMap escapeLiteral) = ts := by
  induction ts with
  | nil => rfl
  | cons c ts ih => rw [List.flatMap_cons, decodeLiteral_escape, ih]

theorem toList_literalRegex (text : String) :
    (literalRegex text).toList = '/' :: text.toList.flatMap escapeLiteral ++ ['/'] := by
  rw [literalRegex, String.toList_ofList]

/-- **Literals are told apart** by their expressions. -/
theorem literalRegex_injective : Function.Injective literalRegex := by
  intro text other h
  have hbody := congrArg String.toList h
  rw [toList_literalRegex, toList_literalRegex, List.append_cancel_right_eq, List.cons.injEq] at hbody
  have hdecode := congrArg decodeLiteral hbody.2
  rw [decodeLiteral_escapeLiteral, decodeLiteral_escapeLiteral] at hdecode
  exact String.toList_injective hdecode

/-! ### What the expression matches -/

/-- **Each character of a literal** is read by a regular expression as itself. -/
theorem spelling_escapeLiteral : Pattern.Spelling escapeLiteral := by
  have hmarks : Pattern.marks ⊆ specials := by decide
  have hends : "|)*+?\x7b".toList ⊆ specials := by decide
  have hnot : ∀ {c : Char} {marks : List Char}, isSpecial c = false →
      marks ⊆ specials → c ∉ marks := by
    intro c marks hplain hsubset hmem
    cases hplain.symm.trans (isSpecial_iff.mpr (hsubset hmem))
  constructor
  · intro c fuel rest
    rcases escapeLiteral_cases c with ⟨hspecial, hwrite⟩ | ⟨d, hd, hc, hwrite⟩ | ⟨hlt, hwrite⟩ |
      ⟨hplain, _, _, hwrite⟩
    · rw [hwrite, List.cons_append, List.singleton_append]
      have hall : (specials.all fun c => (Pattern.classEscape? c).isNone &&
          (Pattern.controlEscape? c).isNone && !c.isAlphanum) = true := by decide
      exact Pattern.readItem_escaped (List.all_eq_true.mp hall c (isSpecial_iff.mp hspecial))
    · simp only [List.mem_cons, List.not_mem_nil, or_false] at hd
      rcases hd with rfl | rfl | rfl
      all_goals
        cases hc
        rw [hwrite]
        rfl
    · obtain ⟨hhigh, hlow⟩ := hexValue_code hlt
      rw [hwrite]
      simp [Pattern.readItem, Pattern.classEscape?, Pattern.charEscape?, Pattern.hexEscape?, hhigh,
        hlow, Nat.div_add_mod, Char.ofNat_toNat, show c.toNat.isValidChar from c.valid]
    · rw [hwrite, List.singleton_append]
      exact Pattern.readItem_self (hnot hplain hmarks)
  · intro c
    rcases escapeLiteral_cases c with ⟨_, hwrite⟩ | ⟨_, _, _, hwrite⟩ | ⟨_, hwrite⟩ |
      ⟨hplain, _, _, hwrite⟩
    · exact ⟨_, _, hwrite, rfl, fun rest => by rw [hwrite]; rfl⟩
    · exact ⟨_, _, hwrite, rfl, fun rest => by rw [hwrite]; rfl⟩
    · exact ⟨_, _, hwrite, rfl, fun rest => by rw [hwrite]; rfl⟩
    · obtain ⟨hstart, hrounds⟩ := Pattern.starts_self (hnot hplain hends)
      exact ⟨c, [], hwrite, hstart, fun rest => by rw [hwrite]; exact hrounds rest⟩

/-- **The body of a literal's expression is read** as the pattern of that one text. -/
theorem ofChars_body (ts : List Char) : ∃ p, Pattern.ofChars? (ts.flatMap escapeLiteral) = some p ∧
    ∀ cs, p.Admits cs ↔ cs = ts := by
  refine ⟨_, Pattern.ofChars_spelled spelling_escapeLiteral ts, fun cs => ?_⟩
  rw [Pattern.admits_spelled_iff]
  simp [Pattern.admits_empty_iff]

/-- **The expression of a literal is exact.** It stands between slashes; outside backslash pairs it
has no special character, and nowhere a double quote or a control character; it spells out its text,
so that different texts have different expressions; and as a regular expression it matches that text
and no other. -/
theorem literalRegex_exact (text : String) : ∃ body,
    (literalRegex text).toList = '/' :: body ++ ['/'] ∧
    (∀ c, [c] ∈ pieces body → isSpecial c = false) ∧ '"' ∉ body ∧ (∀ c ∈ body, 32 ≤ c.toNat) ∧
    decodeLiteral body = text.toList ∧
    (∀ other, literalRegex other = literalRegex text → other = text) ∧
    ∃ p, Pattern.ofChars? body = some p ∧ ∀ cs, p.Admits cs ↔ cs = text.toList :=
  ⟨text.toList.flatMap escapeLiteral, toList_literalRegex text, fun _ => plain_of_bare,
    fun h => (shown_of_mem_body h).1 rfl, fun _ h => (shown_of_mem_body h).2,
    decodeLiteral_escapeLiteral _, fun _ h => literalRegex_injective h, ofChars_body _⟩

/-! ### What a parser reads -/

/-- One character of a literal as it is once a parser has dissolved the escapes. -/
def spellOut (c : Char) : List Char :=
  if isSpecial c then ['\\', c] else [c]

/-- **A parser dissolves the escapes** of a literal's expression down to its special characters. -/
theorem unescape_escapeLiteral (c : Char) (rest : List Char) :
    Slashed.unescape? (escapeLiteral c ++ rest) =
      (Slashed.unescape? rest).map (spellOut c ++ ·) := by
  by_cases hspecial : isSpecial c = true
  · have hall : (specials.all fun c => decide (c ∉ "xuUnrtf\"\n\r".toList)) = true := by decide
    have hpair := of_decide_eq_true (List.all_eq_true.mp hall c (isSpecial_iff.mp hspecial))
    rw [spellOut, if_pos hspecial, escapeLiteral, if_pos hspecial, List.cons_append,
      List.singleton_append]
    exact Slashed.unescape_escape (Slashed.escape_pair hpair rest)
  rw [spellOut, if_neg hspecial]
  rcases escapeLiteral_cases c with ⟨h, _⟩ | ⟨d, hd, hc, hwrite⟩ | ⟨hlt, hwrite⟩ |
    ⟨hplain, _, hlow, hwrite⟩
  · exact absurd h hspecial
  · have hescape : Slashed.escape? (d :: rest) = some ([c], 1) := by
      simp only [List.mem_cons, List.not_mem_nil, or_false] at hd
      rcases hd with rfl | rfl | rfl
      all_goals
        cases hc
        rfl
    rw [hwrite, List.cons_append, List.singleton_append]
    exact Slashed.unescape_escape hescape
  · obtain ⟨hhigh, hlow⟩ := hexValue_code hlt
    have hescape : Slashed.escape? ('x' :: Text.hexDigit (c.toNat / 16) ::
        Text.hexDigit (c.toNat % 16) :: rest) = some ([c], 3) := by
      simp [Slashed.escape?, Pattern.hexEscape?, hhigh, hlow, Nat.div_add_mod, Char.ofNat_toNat,
        show c.toNat.isValidChar from c.valid]
    rw [hwrite]
    exact Slashed.unescape_escape hescape
  · rw [hwrite, List.singleton_append]
    refine Slashed.unescape_plain (ne_backslash_of_plain hplain) ?_ ?_ rest
    · rintro rfl
      exact absurd hlow (by decide)
    · rintro rfl
      exact absurd hlow (by decide)

theorem inner_literalRegex (text : String) :
    inner? (literalRegex text) = some (text.toList.flatMap spellOut) := by
  have hbody : ∀ ts : List Char,
      Slashed.unescape? (ts.flatMap escapeLiteral) = some (ts.flatMap spellOut) := by
    intro ts
    induction ts with
    | nil => rfl
    | cons c ts ih => rw [List.flatMap_cons, unescape_escapeLiteral, ih]; rfl
  rw [inner?, toList_literalRegex, List.cons_append]
  simp only [List.dropLast_concat, hbody]

theorem inner_patternRegex (regex : String) :
    inner? (patternRegex regex) = Slashed.respell? regex.toList := by
  rw [inner?, patternRegex, String.toList_ofList, List.cons_append]
  simp only [List.dropLast_concat]
  rfl

theorem spelling_spellOut : Pattern.Spelling spellOut := by
  have hmarks : Pattern.marks ⊆ specials := by decide
  have hends : "|)*+?\x7b".toList ⊆ specials := by decide
  have hnot : ∀ {c : Char} {marks : List Char}, ¬ isSpecial c = true → marks ⊆ specials →
      c ∉ marks := fun hplain hsubset hmem => hplain (isSpecial_iff.mpr (hsubset hmem))
  constructor
  · intro c fuel rest
    unfold spellOut
    split
    · rename_i hspecial
      have hall : (specials.all fun c => (Pattern.classEscape? c).isNone &&
          (Pattern.controlEscape? c).isNone && !c.isAlphanum) = true := by decide
      exact Pattern.readItem_escaped (List.all_eq_true.mp hall c (isSpecial_iff.mp hspecial))
    · rename_i hplain
      exact Pattern.readItem_self (hnot hplain hmarks)
  · intro c
    unfold spellOut
    split
    · exact ⟨_, _, rfl, rfl, fun rest => rfl⟩
    · rename_i hplain
      obtain ⟨hstart, hrounds⟩ := Pattern.starts_self (hnot hplain hends)
      exact ⟨c, [], rfl, hstart, hrounds⟩

end Covenant.Listing
