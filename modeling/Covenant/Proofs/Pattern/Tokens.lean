import Covenant.Proofs.Decimal.Integer
import Covenant.Proofs.Grammar.Derives
import Covenant.Proofs.Pattern.Matching
import Covenant.Proofs.Text.Literal

/-!
Texts that the patterns of primitive types take.

* `accepts_literal_iff`: a literal takes its text and no other.
* `accepts_string`: the pattern of texts takes every JSON literal.
* `accepts_integer`: the pattern of whole numbers takes every number as it is written.
* `accepts_boolean`: the pattern of truth values takes both.
* `accepts_any`: the pattern of any text takes every text but the empty one.
-/

namespace Covenant.Symbol

theorem accepts_literal_iff {t : String} {cs : List Char} {c : Cardinality} :
    (Symbol.literal t c).Accepts cs ↔ cs = t.toList :=
  Pattern.match_literal_iff

theorem toPattern_pattern {regex : String} {p : Pattern}
    (h : Pattern.ofChars? (Symbol.pattern regex).regex = some p) :
    (Symbol.pattern regex).toPattern = p := by
  change (Pattern.ofChars? (Symbol.pattern regex).regex).getD _ = p
  rw [h, Option.getD_some]

/-! ### Patterns as they are read -/

/-- One character of a text between quotes, or one escape. -/
def quotedPattern : Pattern :=
  .alt (.oneOf true [.range '"' '"', .range '\\' '\\']) (.seq (.char '\\') .any)

def signPattern : Pattern :=
  .rep (.oneOf false [.range '+' '+', .range '-' '-']) 0 (some 1) false

def digitPattern : Pattern :=
  .oneOf false [.range '0' '9']

/-- The patterns of texts, whole numbers, truth values and any text. -/
theorem toPattern_primitive :
    (Symbol.pattern "\"(?:[^\"\\\\]|\\\\.)*\"").toPattern =
        .seq (.char '"') (.seq (.rep quotedPattern 0 none false) (.char '"')) ∧
      (Symbol.pattern "[+-]?[0-9]+").toPattern =
        .seq signPattern (.rep digitPattern 1 none false) ∧
      (Symbol.pattern "true|false").toPattern =
        .alt (.literal "true".toList) (.literal "false".toList) ∧
      (Symbol.pattern "[\\s\\S]+").toPattern =
        .rep (.oneOf false [.blank, .other .blank]) 1 none false := by
  decide +kernel

/-! ### Texts -/

theorem admits_range_self (c d : Char) : (ClassPart.range d d).admits c = decide (c = d) := by
  rw [ClassPart.admits, Bool.eq_iff_iff]
  simp only [Bool.and_eq_true, decide_eq_true_eq]
  exact ⟨fun h => le_antisymm h.2 h.1, fun h => ⟨h ▸ le_refl _, h ▸ le_refl _⟩⟩

theorem takes_plain {c : Char} (hquote : c ≠ '"') (hescape : c ≠ '\\') :
    quotedPattern.Takes [c] := by
  refine ⟨by simp, fun tail n k => ?_⟩
  simp only [quotedPattern, Pattern.run, List.cons_append, List.nil_append, List.any_cons,
    List.any_nil, admits_range_self, hquote, hescape, hescape.symm]
  cases k tail (n + 1) <;> rfl

theorem takes_escape {c : Char} (hline : c ≠ '\n') : quotedPattern.Takes ['\\', c] := by
  refine ⟨by simp, fun tail n k => ?_⟩
  simp [quotedPattern, Pattern.run, admits_range_self, hline, Nat.add_assoc]

theorem flatten_singletons (cs : List Char) : (cs.map ([·])).flatten = cs := by
  induction cs with
  | nil => rfl
  | cons c cs ih => rw [List.map_cons, List.flatten_cons, ih, List.singleton_append]

/-- A text between quotes consists of characters and escapes. -/
theorem encode_pieces (cs : List Char) : ∃ pieces : List (List Char),
    JsonText.encode false cs = pieces.flatten ∧ ∀ c ∈ pieces, quotedPattern.Takes c := by
  induction cs with
  | nil => exact ⟨[], rfl, by simp⟩
  | cons c cs ih =>
    obtain ⟨pieces, hpieces, htakes⟩ := ih
    have hcons : JsonText.encode false (c :: cs) = JsonText.escape false c ++ pieces.flatten := by
      rw [← hpieces]
      rfl
    rcases JsonText.escape_cases c with ⟨d, hu, hd, he⟩ | ⟨hc, he⟩ | ⟨hq, hb, hc, he⟩
    · refine ⟨['\\', d] :: pieces, by rw [hcons, he]; rfl, ?_⟩
      have hline : d ≠ '\n' := by
        rintro rfl
        cases hd
      exact List.forall_mem_cons.mpr ⟨takes_escape hline, htakes⟩
    · refine ⟨['\\', 'u'] :: (Text.hexDigits 4 c.toNat).map ([·]) ++ pieces, ?_, ?_⟩
      · rw [hcons, he, JsonText.escapeUnit, List.flatten_append, List.flatten_cons,
          flatten_singletons]
        rfl
      · intro piece hpiece
        rcases List.mem_append.mp hpiece with hpiece | hpiece
        · rcases List.mem_cons.mp hpiece with rfl | hpiece
          · exact takes_escape (by decide)
          · obtain ⟨d, hd, rfl⟩ := List.mem_map.mp hpiece
            obtain ⟨hb, hq, _⟩ := JsonText.hexDigits_plain hc d hd
            exact takes_plain hq hb
        · exact htakes piece hpiece
    · refine ⟨[c] :: pieces, by rw [hcons, he]; rfl, ?_⟩
      exact List.forall_mem_cons.mpr ⟨takes_plain hq hb, htakes⟩

/-- **The pattern of texts takes every JSON literal.** -/
theorem accepts_string (s : String) :
    (Symbol.pattern "\"(?:[^\"\\\\]|\\\\.)*\"").Accepts (JsonText.literal false s).toList := by
  obtain ⟨pieces, hpieces, htakes⟩ := encode_pieces s.toList
  have hstop : ∀ n, ∀ k : Pattern.Next Nat, quotedPattern.run ['"'] n k = none := by
    intro n k
    simp [quotedPattern, Pattern.run, admits_range_self]
  have htext : (JsonText.literal false s).toList = '"' :: (pieces.flatten ++ ['"']) := by
    rw [JsonText.literal, String.toList_ofList, hpieces, List.cons_append]
  rw [Accepts, toPattern_primitive.1, htext, Pattern.match?]
  change (Pattern.rep quotedPattern 0 none false).run (pieces.flatten ++ ['"']) 1
    (fun rest n => (Pattern.char '"').run rest n fun _ n => some n) = _
  refine Pattern.run_rep_greedy htakes (Nat.zero_le _) (by simp) hstop ?_
  simp [Pattern.run]
  omega

/-! ### Whole numbers -/

theorem admits_digit_iff {c : Char} :
    (ClassPart.range '0' '9').admits c = true ↔ c.isDigit = true := by
  simp only [Char.isDigit, ClassPart.admits, Bool.and_eq_true, decide_eq_true_eq]
  exact Iff.rfl

theorem takes_digit {c : Char} (h : c.isDigit = true) : digitPattern.Takes [c] := by
  refine ⟨by simp, fun tail n k => ?_⟩
  simp [digitPattern, Pattern.run, admits_digit_iff.mpr h]

section

variable {cs rest : List Char} {n b : Nat} {k : Pattern.Next Nat}

/-- No digit comes first. -/
theorem run_digit_stop (h : ∀ c ∈ rest.head?, c.isDigit = false) :
    digitPattern.run rest n k = none := by
  cases rest with
  | nil => rfl
  | cons c rest =>
    have hstop : (ClassPart.range '0' '9').admits c = false := by
      rw [Bool.eq_false_iff, ne_eq, admits_digit_iff, h c rfl]
      exact Bool.false_ne_true
    simp [digitPattern, Pattern.run, hstop]

theorem takes_digits (hcs : ∀ c ∈ cs, c.isDigit = true) :
    ∀ piece ∈ cs.map ([·]), digitPattern.Takes piece := by
  intro piece hpiece
  obtain ⟨c, hc, rfl⟩ := List.mem_map.mp hpiece
  exact takes_digit (hcs c hc)

/-- A number of digits. -/
theorem run_width (hcs : ∀ c ∈ cs, c.isDigit = true) :
    (Pattern.rep digitPattern cs.length (some 0) false).run (cs ++ rest) n k =
      k rest (n + cs.length) := by
  have hrun := @Pattern.run_count digitPattern (cs.map ([·])) rest n k (takes_digits hcs)
  rwa [List.length_map, flatten_singletons] at hrun

/-- **Digits are taken** up to what is no digit. -/
theorem run_digits {least : Nat} {more : Option Nat} (hcs : ∀ c ∈ cs, c.isDigit = true)
    (hleast : least ≤ cs.length) (hmore : ∀ m ∈ more, cs.length ≤ least + m)
    (hrest : ∀ c ∈ rest.head?, c.isDigit = false)
    (hk : k rest (n + cs.length) = some b) :
    (Pattern.rep digitPattern least more false).run (cs ++ rest) n k = some b := by
  have hlength : (cs.map ([·])).length = cs.length := List.length_map _
  have hflatten : (cs.map ([·])).flatten = cs := flatten_singletons cs
  have hrun := @Pattern.run_rep_greedy digitPattern (cs.map ([·])) rest n b k least more
    (takes_digits hcs)
  rw [hlength, hflatten] at hrun
  exact hrun hleast hmore (fun _ _ => run_digit_stop hrest) hk

/-- Digits up to the end of a text. -/
theorem run_last_digits (hcs : ∀ c ∈ cs, c.isDigit = true) (hne : cs ≠ []) :
    (Pattern.rep digitPattern 1 none false).run cs n (fun _ n => some n) = some (n + cs.length) := by
  have hrun := @run_digits cs [] n (n + cs.length) (fun _ n => some n) 1 none hcs
    (List.length_pos_iff.mpr hne) (by simp) (by simp) rfl
  rwa [List.append_nil] at hrun

end

theorem run_sign {β : Type} {c : Char} {cs : List Char} (h : c.isDigit = true) (n : Nat)
    (k : Pattern.Next β) : signPattern.run (c :: cs) n k = k (c :: cs) n := by
  have hplus : c ≠ '+' := by
    rintro rfl
    exact absurd h (by decide)
  have hminus : c ≠ '-' := by
    rintro rfl
    exact absurd h (by decide)
  simp [signPattern, Pattern.run, Pattern.rounds, Pattern.moreRounds, admits_range_self, hplus,
    hminus]

theorem run_minus {cs : List Char} {n b : Nat} {k : Pattern.Next Nat}
    (h : k cs (n + 1) = some b) : signPattern.run ('-' :: cs) n k = some b := by
  have hminus : (ClassPart.range '-' '-').admits '-' = true := by decide
  simp [signPattern, Pattern.run, Pattern.rounds, Pattern.moreRounds, hminus, h]

/-- **The pattern of whole numbers takes every number as it is written.** -/
theorem accepts_integer (n : Int) : (Symbol.pattern "[+-]?[0-9]+").Accepts (toString n).toList := by
  rw [Accepts, toPattern_primitive.2.1, Pattern.match?, Pattern.run]
  have hdigits : ∀ m, ∃ c cs, Nat.toDigits 10 m = c :: cs ∧ ∀ d ∈ c :: cs, d.isDigit = true := by
    intro m
    obtain ⟨c, cs, hcs⟩ := List.exists_cons_of_ne_nil (Nat.toDigits_ne_nil (n := m) (b := 10))
    exact ⟨c, cs, hcs, fun d hd => Text.isDigit_of_mem_toDigits (hcs ▸ hd)⟩
  cases n with
  | ofNat m =>
    obtain ⟨c, cs, hcs, hall⟩ := hdigits m
    rw [Text.toList_toString_ofNat, hcs, run_sign (hall c List.mem_cons_self),
      run_last_digits hall (List.cons_ne_nil c cs), Nat.zero_add]
  | negSucc m =>
    obtain ⟨c, cs, hcs, hall⟩ := hdigits (m + 1)
    rw [Text.toList_toString_negSucc, hcs]
    refine run_minus ?_
    rw [run_last_digits hall (List.cons_ne_nil c cs), List.length_cons, List.length_cons,
      List.length_cons, Nat.zero_add, Nat.add_comm 1]

/-! ### Truth values and any text -/

/-- The pattern of truth values takes both. -/
theorem accepts_boolean (b : Bool) :
    (Symbol.pattern "true|false").Accepts (if b then "true" else "false").toList := by
  rw [Accepts, toPattern_primitive.2.2.1]
  cases b <;> rfl

/-- **The pattern of any text takes every text but the empty one.** -/
theorem accepts_any {cs : List Char} (h : cs ≠ []) :
    (Symbol.pattern "[\\s\\S]+").Accepts cs := by
  have htakes : ∀ c : Char, (Pattern.oneOf false [.blank, .other .blank]).Takes [c] := by
    intro c
    refine ⟨by simp, fun tail n k => ?_⟩
    simp [Pattern.run, ClassPart.admits]
  have hpieces : ∀ piece ∈ cs.map ([·]),
      (Pattern.oneOf false [.blank, .other .blank]).Takes piece := by
    intro piece hpiece
    obtain ⟨d, _, rfl⟩ := List.mem_map.mp hpiece
    exact htakes d
  have hlength : 1 ≤ (cs.map ([·])).length := by
    rw [List.length_map]
    exact List.length_pos_iff.mpr h
  have hrun := @Pattern.run_rep_greedy _ (cs.map ([·])) [] 0 _ (fun _ n => some n) 1 none hpieces
    hlength (by simp) (fun _ _ => rfl) rfl
  rw [flatten_singletons, List.append_nil, Nat.zero_add] at hrun
  rw [Accepts, toPattern_primitive.2.2.2, Pattern.match?, hrun]

end Covenant.Symbol
