import Mathlib
import Covenant.Pattern.Basic

/-!
The ways in which a pattern matches.

* `ways`: the lengths of all matches at the start of a text, in order of preference.
* `run_eq`: matching hands the ways in this order to what comes next.
* `ways_take`: the ways in a beginning of a text are those that end in it.
* `mem_tokenLengths_iff`: a token may end where its text, taken alone, is matched as a
  whole.
-/

namespace Covenant.Pattern

def single (admitted : Char → Bool) : List Char → List Nat
  | d :: _ => if admitted d then [1] else []
  | [] => []

/-- The lengths of `n` rounds. -/
def roundWays (step : List Char → List Nat) : Nat → List Char → List Nat
  | 0, _ => [0]
  | n + 1, s => (step s).flatMap fun a => (roundWays step n (s.drop a)).map (a + ·)

/-- The lengths of up to `more` rounds. -/
def moreWays (step : List Char → List Nat) (lazy : Bool) :
    Nat → Option Nat → List Char → List Nat
  | 0, _, _ => [0]
  | fuel + 1, more, s =>
    let again := if more = some 0 then [] else (step s).flatMap fun a =>
      (if a = 0 then [0] else moreWays step lazy fuel (more.map (· - 1)) (s.drop a)).map (a + ·)
    if lazy then 0 :: again else again ++ [0]

/-- **The lengths of all matches** at the start of a text, in order of preference. -/
def ways : Pattern → List Char → List Nat
  | .empty, _ => [0]
  | .char c, s => single (c == ·) s
  | .any, s => single (· != '\n') s
  | .oneOf negated parts, s => single (fun d => parts.any (·.admits d) != negated) s
  | .seq p q, s => (p.ways s).flatMap fun a => (q.ways (s.drop a)).map (a + ·)
  | .alt p q, s => p.ways s ++ q.ways s
  | .rep p least more lazy, s => (roundWays p.ways least s).flatMap fun a =>
      (moreWays p.ways lazy ((s.drop a).length + 1) more (s.drop a)).map (a + ·)

/-! ### Matching tries the ways in order -/

theorem findSome_single {β : Type} (admitted : Char → Bool) (d : Char) (s : List Char)
    (k : Nat → Option β) :
    (single admitted (d :: s)).findSome? k = if admitted d then k 1 else none := by
  rw [single]
  cases admitted d <;> simp

/-- Two matches one after the other. -/
theorem findSome_flatMap {β : Type} (as : List Nat) (f : Nat → List Nat) (k : Nat → Option β) :
    (as.flatMap fun a => (f a).map (a + ·)).findSome? k =
      as.findSome? fun a => (f a).findSome? fun b => k (a + b) := by
  induction as with
  | nil => rfl
  | cons a as ih =>
    rw [List.flatMap_cons, List.findSome?_append, ih, List.findSome?_map, List.findSome?_cons]
    change ((f a).findSome? fun b => k (a + b)).or _ = _
    cases (f a).findSome? fun b => k (a + b) <;> rfl

section

variable {β : Type} {p : Pattern}

theorem rounds_eq {step : List Char → Nat → Next β → Option β} {w : List Char → List Nat}
    (hstep : ∀ s n k, step s n k = (w s).findSome? fun a => k (s.drop a) (n + a)) (m : Nat)
    (s : List Char) (n : Nat) (k : Next β) :
    rounds step m s n k = (roundWays w m s).findSome? fun a => k (s.drop a) (n + a) := by
  induction m generalizing s n with
  | zero => simp [rounds, roundWays]
  | succ m ih =>
    rw [rounds, hstep, roundWays, findSome_flatMap]
    simp only [ih, List.drop_drop, Nat.add_assoc]

theorem moreRounds_eq {step : List Char → Nat → Next β → Option β} {w : List Char → List Nat}
    (hstep : ∀ s n k, step s n k = (w s).findSome? fun a => k (s.drop a) (n + a)) (lazy : Bool)
    (fuel : Nat) (more : Option Nat) (s : List Char) (n : Nat) (k : Next β) :
    moreRounds step lazy fuel more s n k =
      (moreWays w lazy fuel more s).findSome? fun a => k (s.drop a) (n + a) := by
  induction fuel generalizing more s n with
  | zero => simp [moreRounds, moreWays]
  | succ fuel ih =>
    have hagain : (if more = some 0 then none else step s n fun s' n' =>
        if n' = n then k s' n' else moreRounds step lazy fuel (more.map (· - 1)) s' n' k) =
        (if more = some 0 then [] else (w s).flatMap fun a =>
          (if a = 0 then [0] else moreWays w lazy fuel (more.map (· - 1)) (s.drop a)).map
            (a + ·)).findSome? fun a => k (s.drop a) (n + a) := by
      split
      · rfl
      · rw [hstep, findSome_flatMap]
        congr 1
        funext a
        by_cases ha : a = 0
        · simp [ha]
        · rw [if_neg (by omega), if_neg ha, ih]
          simp only [List.drop_drop, Nat.add_assoc]
    rw [moreRounds, moreWays]
    simp only [hagain]
    cases lazy with
    | false => simp [List.findSome?_append]
    | true =>
      simp only [if_true, List.findSome?_cons, List.drop_zero, Nat.add_zero]
      cases k s n <;> rfl

end

/-- **Matching hands the ways in order to what comes next.** -/
theorem run_eq {β : Type} (p : Pattern) (s : List Char) (n : Nat) (k : Next β) :
    p.run s n k = (p.ways s).findSome? fun a => k (s.drop a) (n + a) := by
  induction p generalizing s n k with
  | empty => simp [run, ways]
  | char c =>
    cases s with
    | nil => rfl
    | cons d s => simp [run, ways, findSome_single]
  | any =>
    cases s with
    | nil => rfl
    | cons d s => by_cases h : d = '\n' <;> simp [run, ways, findSome_single, h]
  | oneOf negated parts =>
    cases s with
    | nil => rfl
    | cons d s => rw [run, ways, findSome_single, List.drop_succ_cons, List.drop_zero]
  | seq p q ihp ihq =>
    rw [run, ihp, ways, findSome_flatMap]
    simp only [ihq, List.drop_drop, Nat.add_assoc]
  | alt p q ihp ihq =>
    rw [run, ihp, ihq, ways, List.findSome?_append]
    cases (p.ways s).findSome? fun a => k (s.drop a) (n + a) <;> rfl
  | rep p least more lazy ih =>
    rw [run, rounds_eq ih, ways, findSome_flatMap]
    simp only [moreRounds_eq ih, List.drop_drop, Nat.add_assoc]

/-- The preferred match is the first way. -/
theorem match_eq (p : Pattern) (s : List Char) : p.match? s = (p.ways s).head? := by
  rw [match?, run_eq]
  cases p.ways s <;> simp

/-! ### Ways in a beginning of a text -/

/-- The lengths in a beginning of a text are those that end in it. -/
def Local (w : List Char → List Nat) : Prop :=
  ∀ s m, w (s.take m) = (w s).filter (· ≤ m)

theorem Local.le {w : List Char → List Nat} (hw : Local w) {s : List Char} {a : Nat}
    (ha : a ∈ w s) : a ≤ s.length := by
  have htake := hw s s.length
  rw [List.take_length] at htake
  rw [htake] at ha
  simpa using (List.mem_filter.mp ha).2

theorem local_single (admitted : Char → Bool) : Local (single admitted) := by
  intro s m
  cases s with
  | nil => cases m <;> rfl
  | cons d s =>
    cases m with
    | zero => cases h : admitted d <;> simp [single, h]
    | succ m => cases h : admitted d <;> simp [single, h]

/-- **Lengths one after the other** are local when both are. -/
theorem flatMap_take {w : List Char → List Nat} (hw : Local w) {v u : Nat → List Char → List Nat}
    {s : List Char} {m : Nat} (hv : ∀ a ∈ w s, a ≤ m →
      v a ((s.drop a).take (m - a)) = (u a (s.drop a)).filter (· ≤ m - a)) :
    ((w (s.take m)).flatMap fun a => (v a ((s.take m).drop a)).map (a + ·)) =
      ((w s).flatMap fun a => (u a (s.drop a)).map (a + ·)).filter (· ≤ m) := by
  rw [hw, List.filter_flatMap]
  generalize w s = as at hv ⊢
  induction as with
  | nil => rfl
  | cons a as ih =>
    have hrest := ih fun b hb => hv b (by simp [hb])
    rw [List.flatMap_cons, ← hrest]
    by_cases ha : a ≤ m
    · rw [List.filter_cons_of_pos (by simpa using ha), List.flatMap_cons, List.drop_take,
        hv a (by simp) ha, List.filter_map]
      congr 2
      refine List.filter_congr fun b _ => ?_
      simp only [Function.comp_apply, decide_eq_decide]
      omega
    · rw [List.filter_cons_of_neg (by simpa using ha)]
      have hnone : ((u a (s.drop a)).map (a + ·)).filter (· ≤ m) = [] := by
        rw [List.filter_eq_nil_iff]
        intro b hb
        obtain ⟨b, _, rfl⟩ := List.mem_map.mp hb
        simp only [decide_eq_true_eq]
        omega
      rw [hnone, List.nil_append]

theorem Local.flatMap {w v : List Char → List Nat} (hw : Local w) (hv : Local v) :
    Local fun s => (w s).flatMap fun a => (v (s.drop a)).map (a + ·) :=
  fun s m => flatMap_take hw (v := fun _ => v) fun a _ _ => hv (s.drop a) (m - a)

theorem local_zero : Local fun _ => [0] :=
  fun _ _ => rfl

theorem Local.roundWays {w : List Char → List Nat} (hw : Local w) (n : Nat) :
    Local (roundWays w n) := by
  induction n with
  | zero => exact local_zero
  | succ n ih => exact hw.flatMap ih

/-- Repetitions are local, whatever steps they are allowed beyond those needed. -/
theorem Local.moreWays {w : List Char → List Nat} (hw : Local w) (lazy : Bool) {fuel fuel' : Nat}
    (more : Option Nat) {s : List Char} {m : Nat} (hfuel : (s.take m).length < fuel)
    (hfuel' : s.length < fuel') :
    moreWays w lazy fuel more (s.take m) = (moreWays w lazy fuel' more s).filter (· ≤ m) := by
  induction fuel generalizing fuel' more s m with
  | zero => cases hfuel
  | succ fuel ih =>
    cases fuel' with
    | zero => cases hfuel'
    | succ fuel' =>
      have hagain : (if more = some 0 then [] else (w (s.take m)).flatMap fun a =>
          (if a = 0 then [0] else Pattern.moreWays w lazy fuel (more.map (· - 1))
            ((s.take m).drop a)).map (a + ·)) =
          (if more = some 0 then [] else (w s).flatMap fun a =>
            (if a = 0 then [0] else Pattern.moreWays w lazy fuel' (more.map (· - 1))
              (s.drop a)).map (a + ·)).filter (· ≤ m) := by
        split
        · rfl
        · refine flatMap_take hw (v := fun a s => if a = 0 then [0] else
            Pattern.moreWays w lazy fuel (more.map (· - 1)) s) (u := fun a s =>
              if a = 0 then [0] else Pattern.moreWays w lazy fuel' (more.map (· - 1)) s)
            fun a ha ham => ?_
          by_cases hzero : a = 0
          · simp [hzero]
          · have hle := hw.le ha
            rw [List.length_take] at hfuel
            rw [if_neg hzero, if_neg hzero]
            apply ih
            · rw [List.length_take, List.length_drop]
              omega
            · rw [List.length_drop]
              omega
      rw [Pattern.moreWays, Pattern.moreWays, hagain]
      cases lazy with
      | false => simp [List.filter_append]
      | true => simp

/-- **The ways in a beginning of a text** are those that end in it. -/
theorem ways_take (p : Pattern) : Local p.ways := by
  induction p with
  | empty => exact local_zero
  | char c => exact local_single _
  | any => exact local_single _
  | oneOf negated parts => exact local_single _
  | seq p q ihp ihq => exact ihp.flatMap ihq
  | alt p q ihp ihq =>
    intro s m
    rw [ways, ways, ihp, ihq, List.filter_append]
  | rep p least more lazy ih =>
    have hmore : Local fun s => moreWays p.ways lazy (s.length + 1) more s :=
      fun s m => ih.moreWays lazy more (Nat.lt_succ_self _) (Nat.lt_succ_self _)
    exact (ih.roundWays least).flatMap hmore

/-! ### Tokens -/

/-- A beginning of a text is matched as a whole when the text has a way of its length, and
none before it that is shorter. -/
theorem match_take_eq {p : Pattern} {s : List Char} {m j : Nat} (hm : m ≤ j)
    (h : p.match? (s.take j) = some m) : p.match? (s.take m) = some m := by
  rw [match_eq] at h ⊢
  have htake : s.take m = (s.take j).take m := by rw [List.take_take, Nat.min_eq_left hm]
  obtain ⟨rest, hrest⟩ := List.head?_eq_some_iff.mp h
  rw [htake, ways_take, hrest, List.filter_cons_of_pos (by simp)]
  rfl

theorem le_of_match {p : Pattern} {s : List Char} {m : Nat} (h : p.match? s = some m) :
    m ≤ s.length := by
  rw [match_eq] at h
  exact (ways_take p).le (List.mem_of_mem_head? h)

/-- The preferred match in a longer text is no shorter. -/
theorem le_of_match_take {p : Pattern} {s : List Char} {m n : Nat} (h : p.match? s = some n)
    (htake : p.match? (s.take m) = some m) : m ≤ n := by
  by_contra hlt
  rw [match_eq] at h htake
  obtain ⟨rest, hrest⟩ := List.head?_eq_some_iff.mp h
  rw [ways_take, hrest, List.filter_cons_of_pos (by simp; omega), List.head?_cons,
    Option.some.injEq] at htake
  omega

/-- A token ends in the text, and its text, taken alone, is matched as a whole. -/
theorem match_take_of_mem_tokenLengths {p : Pattern} {s : List Char} {m : Nat}
    (h : m ∈ p.tokenLengths s) : m ≤ s.length ∧ p.match? (s.take m) = some m := by
  unfold tokenLengths at h
  split at h
  · cases h
  · rename_i n hn
    rcases List.mem_cons.mp (List.mem_eraseDups.mp h) with rfl | h
    · have hle := le_of_match hn
      refine ⟨hle, match_take_eq hle ?_⟩
      rwa [List.take_length]
    · obtain ⟨j, hj, hmatch⟩ := List.mem_filterMap.mp h
      have hjn := List.mem_range.mp hj
      rw [List.take_take, Nat.min_eq_left (by omega)] at hmatch
      have hle := le_of_match hmatch
      rw [List.length_take] at hle
      exact ⟨by omega, match_take_eq (by omega) hmatch⟩

/-- **A token may end** where its text, taken alone, is matched as a whole. -/
theorem mem_tokenLengths_iff {p : Pattern} (hempty : p.match? [] ≠ some 0) {s : List Char}
    {m : Nat} : m ∈ p.tokenLengths s ↔ m ≤ s.length ∧ p.match? (s.take m) = some m := by
  refine ⟨match_take_of_mem_tokenLengths, fun ⟨hle, hmatch⟩ => ?_⟩
  unfold tokenLengths
  split
  · rename_i hnone
    rw [match_eq, List.head?_eq_none_iff] at hnone
    rw [match_eq, ways_take, hnone] at hmatch
    cases hmatch
  · rename_i n hn
    rw [List.mem_eraseDups, List.mem_cons, List.mem_filterMap]
    rcases Nat.eq_or_lt_of_le (le_of_match_take hn hmatch) with heq | hlt
    · exact .inl heq
    · have hpos : m ≠ 0 := by
        rintro rfl
        exact hempty hmatch
      refine .inr ⟨n - 1 - m, List.mem_range.mpr (by omega), ?_⟩
      rw [List.take_take, show min (n - 1 - (n - 1 - m)) n = m by omega]
      exact hmatch

end Covenant.Pattern
