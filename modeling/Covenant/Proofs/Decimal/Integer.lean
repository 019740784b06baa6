import Covenant.Decimal.Read
import Covenant.Proofs.Text.Basic

/-!
Whole numbers in free text.

* `readInt_lt`: a number that is read has no more digits than numerals may have.
* `readInt_toString`: a number of so many digits is read back as it is written.
-/

namespace Covenant.Decimal

/-! ### Digits -/

theorem exists_of_isDigit {c : Char} (h : c.isDigit = true) : ∃ n, n < 10 ∧ c = Nat.digitChar n := by
  have hrange : 48 ≤ c.toNat ∧ c.toNat ≤ 57 := by
    simp only [Char.isDigit, Bool.and_eq_true, decide_eq_true_eq] at h
    exact h
  refine ⟨c.toNat - 48, by omega, ?_⟩
  have hall : ∀ m, 48 ≤ m → m ≤ 57 → Char.ofNat m = Nat.digitChar (m - 48) := by
    intro m hlow hhigh
    interval_cases m <;> rfl
  rw [← hall _ hrange.1 hrange.2, Char.ofNat_toNat]

theorem digitValue_of_isDigit {c : Char} (h : c.isDigit = true) :
    Text.digitValue? c = some (c.toNat - 48) := by
  obtain ⟨n, hn, rfl⟩ := exists_of_isDigit h
  have hall : ∀ n < 10, Text.digitValue? (Nat.digitChar n) = some ((Nat.digitChar n).toNat - 48) := by
    decide +kernel
  exact hall n hn

theorem not_isBlank_of_isDigit {c : Char} (h : c.isDigit = true) : Text.isBlank c = false := by
  obtain ⟨n, hn, rfl⟩ := exists_of_isDigit h
  have hall : (List.range 10).all (fun n => !Text.isBlank (Nat.digitChar n)) = true := by
    decide
  simpa using List.all_eq_true.mp hall n (List.mem_range.mpr hn)

theorem digitValue_lt {c : Char} {d : Nat} (h : Text.digitValue? c = some d) : d < 10 := by
  rw [Text.digitValue?, Option.ite_none_right_eq_some, Option.some.injEq] at h
  rw [← h.2]
  exact Nat.mod_lt _ (by decide)

theorem digitRun_of_isDigit {cs : List Char} (hcs : ∀ c ∈ cs, c.isDigit = true) {after : Bool}
    (hne : after = true ∨ cs ≠ []) :
    digitRun after cs = some (cs.map fun c => c.toNat - 48) := by
  induction cs generalizing after with
  | nil =>
    rcases hne with rfl | hne
    · rfl
    · exact absurd rfl hne
  | cons c cs ih =>
    have hdigit := hcs c (by simp)
    have hbar : c ≠ '_' := by
      rintro rfl
      exact absurd hdigit (by decide)
    rw [digitRun, if_neg hbar, digitValue_of_isDigit hdigit,
      ih (fun d hd => hcs d (by simp [hd])) (.inl rfl)]
    rfl

theorem lt_of_mem_digitRun {cs : List Char} {after : Bool} {ds : List Nat}
    (h : digitRun after cs = some ds) : ∀ d ∈ ds, d < 10 := by
  induction cs generalizing after ds with
  | nil =>
    unfold digitRun at h
    split at h
    · cases h
      simp
    · cases h
  | cons c cs ih =>
    unfold digitRun at h
    split at h
    · split at h
      · exact ih h
      · cases h
    · simp only [Option.bind_eq_bind, Option.bind_eq_some_iff] at h
      obtain ⟨d, hd, rest, hrest, h⟩ := h
      cases h
      intro e he
      rcases List.mem_cons.mp he with rfl | he
      · exact digitValue_lt hd
      · exact ih hrest e he

theorem ofDigits_lt {ds : List Nat} (hds : ∀ d ∈ ds, d < 10) : ofDigits ds < 10 ^ ds.length := by
  have hfold : ∀ n, ds.foldl (fun n d => 10 * n + d) n < (n + 1) * 10 ^ ds.length := by
    induction ds with
    | nil => simp
    | cons d ds ih =>
      intro n
      have hd := hds d (by simp)
      calc ds.foldl (fun n d => 10 * n + d) (10 * n + d)
          < (10 * n + d + 1) * 10 ^ ds.length := ih (fun e he => hds e (by simp [he])) _
        _ ≤ (10 * (n + 1)) * 10 ^ ds.length := Nat.mul_le_mul_right _ (by omega)
        _ = (n + 1) * 10 ^ (d :: ds).length := by rw [List.length_cons, Nat.pow_succ]; ring
  simpa [ofDigits] using hfold 0

/-! ### Numbers -/

/-- **A number that is read** has no more digits than numerals may have. -/
theorem readInt_lt {s : String} {n : Int} (h : readInt? s = some n) :
    n.natAbs < 10 ^ maxDigits := by
  unfold readInt? at h
  simp only [Option.bind_eq_bind, Option.bind_eq_some_iff] at h
  obtain ⟨ds, hds, h⟩ := h
  split at h
  · cases h
  · rename_i hlength
    have hlt : ofDigits ds < 10 ^ maxDigits :=
      (ofDigits_lt (lt_of_mem_digitRun hds)).trans_le
        (Nat.pow_le_pow_right (by decide) (Nat.le_of_not_gt hlength))
    simp only [pure, Option.some.injEq] at h
    split at h
    · rw [← h]
      simpa using hlt
    · rw [← h]
      simpa using hlt

theorem trim_eq_self {p : Char → Bool} {cs : List Char} (h : ∀ c ∈ cs, p c = false) :
    Text.trim p cs = cs := by
  have hstart : ∀ ds : List Char, (∀ c ∈ ds, p c = false) → ds.dropWhile p = ds := by
    intro ds hds
    cases ds with
    | nil => rfl
    | cons d ds => rw [List.dropWhile_cons_of_neg (by simp [hds d])]
  rw [Text.trim, Text.trimStart, Text.trimEnd, hstart cs h,
    hstart _ fun c hc => h c (List.mem_reverse.mp hc), List.reverse_reverse]

/-- **A number is read back as it is written.** -/
theorem readInt_toString {n : Int} (hn : n.natAbs < 10 ^ maxDigits) :
    readInt? (toString n) = some n := by
  have hlength : ∀ m : Nat, m < 10 ^ maxDigits → (Nat.toDigits 10 m).length ≤ maxDigits := fun m hm =>
    (Nat.length_toDigits_le_iff (by decide) (by decide)).mpr hm
  have hdigits : ∀ m : Nat, ∀ c ∈ Nat.toDigits 10 m, c.isDigit = true := fun m c hc =>
    Text.isDigit_of_mem_toDigits hc
  have hrun : ∀ m : Nat, m < 10 ^ maxDigits →
      ∃ ds, digitRun false (Nat.toDigits 10 m) = some ds ∧ ds.length ≤ maxDigits ∧ ofDigits ds = m := by
    intro m hm
    refine ⟨_, digitRun_of_isDigit (hdigits m) (.inr Nat.toDigits_ne_nil), ?_, ?_⟩
    · rw [List.length_map]
      exact hlength m hm
    · rw [ofDigits, List.foldl_map]
      exact Text.digitsValue_toDigits m
  have htrim : ∀ m : Nat, Text.trim Text.isBlank (Nat.toDigits 10 m) = Nat.toDigits 10 m := fun m =>
    trim_eq_self fun c hc => not_isBlank_of_isDigit (hdigits m c hc)
  cases n with
  | ofNat m =>
    obtain ⟨ds, hds, hle, hvalue⟩ := hrun m hn
    have hsign : takeSign (Nat.toDigits 10 m) = (false, Nat.toDigits 10 m) := by
      unfold takeSign
      split
      · exact absurd (hdigits m '-' (by simp_all)) (by decide)
      · exact absurd (hdigits m '+' (by simp_all)) (by decide)
      · rfl
    simp only [readInt?, Text.toList_toString_ofNat, htrim, hsign, hds]
    simp [hle, hvalue]
  | negSucc m =>
    obtain ⟨ds, hds, hle, hvalue⟩ := hrun (m + 1) hn
    have htrim' : Text.trim Text.isBlank ('-' :: Nat.toDigits 10 (m + 1))
        = '-' :: Nat.toDigits 10 (m + 1) := by
      refine trim_eq_self fun c hc => ?_
      rcases List.mem_cons.mp hc with rfl | hc
      · decide
      · exact not_isBlank_of_isDigit (hdigits _ c hc)
    simp only [readInt?, Text.toList_toString_negSucc, htrim', takeSign, hds]
    simp [hle, hvalue, Int.negSucc_eq]

end Covenant.Decimal
