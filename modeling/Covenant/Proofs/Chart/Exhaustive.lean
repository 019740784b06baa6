import Covenant.Proofs.Chart.Forests

/-!
Trees by trying everything.

A chart is made to read long texts. The trees of a short one can also be had by trying every
production and every way to divide the text, without a chart; the attempt is given up when a tree
would be too high.

* `Cfg.mem_exhaust_iff`: an attempt that is not given up finds all trees.
* `Cfg.read_eq_one`: a text is read as its only tree.
-/

namespace Covenant

/-! ### Attempts -/

section

variable {α β : Type}

/-- What attempts at the members of a list find, unless one of them is given up. -/
def attempts (f : α → Option (List β)) : List α → Option (List β)
  | [] => some []
  | a :: as => do
    let found ← f a
    let more ← attempts f as
    return found ++ more

theorem mem_attempts_iff {f : α → Option (List β)} {as : List α} {bs : List β}
    (h : attempts f as = some bs) {b : β} : b ∈ bs ↔ ∃ a ∈ as, ∃ found, f a = some found ∧ b ∈ found := by
  induction as generalizing bs with
  | nil =>
    cases h
    simp
  | cons a as ih =>
    obtain ⟨found, hfound, h⟩ := Option.bind_eq_some_iff.mp h
    obtain ⟨more, hmore, h⟩ := Option.bind_eq_some_iff.mp h
    cases h
    simp [ih hmore, hfound]

theorem exists_of_attempts {f : α → Option (List β)} {as : List α} {bs : List β}
    (h : attempts f as = some bs) {a : α} (ha : a ∈ as) : ∃ found, f a = some found := by
  induction as generalizing bs with
  | nil => cases ha
  | cons a' as ih =>
    obtain ⟨found, hfound, h⟩ := Option.bind_eq_some_iff.mp h
    obtain ⟨more, hmore, h⟩ := Option.bind_eq_some_iff.mp h
    rcases List.mem_cons.mp ha with rfl | ha
    · exact ⟨found, hfound⟩
    · exact ih hmore ha

end

namespace Cfg

variable {N T : Type}

/-! ### Trees -/

/-- All sequences of trees for parts that are given from the last one to the first. The parts before
one that has no tree are not tried. -/
def exhaustAll (sub : Part N T → Nat → Nat → Option (List (Tree N))) :
    List (Part N T) → Nat → Nat → Option (List (List (Tree N)))
  | [], i, k => some (if i = k then [[]] else [])
  | p :: ps, i, k =>
    attempts (fun m => do
      let last ← sub p m k
      if last.isEmpty then return []
      let front ← exhaustAll sub ps i m
      return front.flatMap fun ts => last.map fun t => ts ++ [t]) (List.range' i (k + 1 - i))

/-- All trees of a part between two positions, unless one would be higher than `fuel`. -/
def exhaust (g : Cfg N T) (cs : List Char) : Nat → Part N T → Nat → Nat → Option (List (Tree N))
  | 0, _, _, _ => none
  | _ + 1, .token x, i, k =>
    some (if i ≤ k ∧ k - i ∈ g.tokens x (cs.drop i) then [.leaf i ((cs.drop i).take (k - i))]
      else [])
  | fuel + 1, .goal a, i, k =>
    attempts (fun x => (exhaustAll (exhaust g cs fuel) x.1.reverse i k).map (·.map (Tree.node a x.2)))
      (g.productions a).zipIdx

variable {g : Cfg N T} {cs : List Char}

theorem mem_exhaustAll_iff {sub : Part N T → Nat → Nat → Option (List (Tree N))}
    (hsub : ∀ {p i k ts}, sub p i k = some ts → ∀ t, t ∈ ts ↔ g.IsPiece cs p i k t)
    {ps : List (Part N T)} {i k : Nat} {uss : List (List (Tree N))}
    (h : exhaustAll sub ps i k = some uss) (us : List (Tree N)) :
    us ∈ uss ↔ g.ArePieces cs ps.reverse i k us := by
  induction ps generalizing k uss us with
  | nil =>
    cases h
    rw [List.reverse_nil, arePieces_nil_iff]
    by_cases hik : i = k <;> simp [hik]
  | cons p ps ih =>
    rw [List.reverse_cons, arePieces_snoc_iff, mem_attempts_iff h]
    constructor
    · rintro ⟨m, -, found, hfound, hus⟩
      obtain ⟨last, hlast, hfound⟩ := Option.bind_eq_some_iff.mp hfound
      split at hfound
      · cases hfound
        cases hus
      · obtain ⟨front, hfront, hfound⟩ := Option.bind_eq_some_iff.mp hfound
        cases hfound
        obtain ⟨ts, hts, hus⟩ := List.mem_flatMap.mp hus
        obtain ⟨t, ht, rfl⟩ := List.mem_map.mp hus
        exact ⟨m, ts, t, rfl, (ih hfront ts).mp hts, (hsub hlast t).mp ht⟩
    · rintro ⟨m, ts, t, rfl, hts, ht⟩
      have hm : m ∈ List.range' i (k + 1 - i) := by
        have hfront := hts.le
        have hlast := ht.le
        rw [List.mem_range'_1]
        omega
      obtain ⟨found, hfound⟩ := exists_of_attempts h hm
      refine ⟨m, hm, found, hfound, ?_⟩
      obtain ⟨last, hlast, hfound⟩ := Option.bind_eq_some_iff.mp hfound
      have hmem := (hsub hlast t).mpr ht
      split at hfound
      · rename_i hempty
        rw [List.isEmpty_iff.mp hempty] at hmem
        cases hmem
      · obtain ⟨front, hfront, hfound⟩ := Option.bind_eq_some_iff.mp hfound
        cases hfound
        exact List.mem_flatMap.mpr ⟨ts, (ih hfront ts).mpr hts, List.mem_map_of_mem hmem⟩

/-- **Trying everything finds all trees**, if it is not given up. -/
theorem mem_exhaust_iff {fuel : Nat} {p : Part N T} {i k : Nat} {ts : List (Tree N)}
    (h : g.exhaust cs fuel p i k = some ts) (t : Tree N) : t ∈ ts ↔ g.IsPiece cs p i k t := by
  induction fuel generalizing p i k ts t with
  | zero => cases h
  | succ fuel ih =>
    cases p with
    | token x =>
      cases h
      rw [isPiece_token_iff]
      constructor
      · intro ht
        split at ht
        · rename_i hx
          exact ⟨k - i, hx.2, by omega, List.mem_singleton.mp ht⟩
        · cases ht
      · rintro ⟨n, hn, rfl, rfl⟩
        simp [hn]
    | goal a =>
      rw [isPiece_goal_iff, mem_attempts_iff h]
      constructor
      · rintro ⟨⟨ps, q⟩, hq, found, hfound, ht⟩
        obtain ⟨uss, huss, rfl⟩ := Option.map_eq_some_iff.mp hfound
        obtain ⟨us, hus, rfl⟩ := List.mem_map.mp ht
        refine ⟨q, ps, us, rfl, List.mk_mem_zipIdx_iff_getElem?.mp hq, ?_⟩
        simpa using (mem_exhaustAll_iff ih huss us).mp hus
      · rintro ⟨q, ps, us, rfl, hq, hus⟩
        have hmem := List.mk_mem_zipIdx_iff_getElem?.mpr hq
        obtain ⟨found, hfound⟩ := exists_of_attempts h hmem
        refine ⟨(ps, q), hmem, found, hfound, ?_⟩
        obtain ⟨uss, huss, rfl⟩ := Option.map_eq_some_iff.mp hfound
        exact List.mem_map_of_mem ((mem_exhaustAll_iff ih huss us).mpr (by simpa using hus))

/-! ### Verdicts -/

/-- **A text is read as its only tree**, if this is no higher than trees are looked for. -/
theorem read_eq_one [DecidableEq N] [Hashable N] (hgoals : ∀ a, g.productions a ≠ [] → a ∈ g.goals)
    (hbounded : ∀ t s, ∀ n ∈ g.tokens t s, n ≤ s.length) {fuel : Nat} {start : N} {t : Tree N}
    (h : g.exhaust cs fuel (.goal start) 0 cs.length = some [t])
    (hheight : t.height ≤ g.depth cs.length) : g.read start cs = .one t := by
  have honly : ∀ t', g.HasLow start cs t' ↔ t' = t := by
    intro t'
    rw [HasLow, ← mem_exhaust_iff h, List.mem_singleton, and_iff_left_iff_imp]
    rintro rfl
    exact hheight
  have hlow := read_low hgoals hbounded start cs
  simp only [honly] at hlow
  cases hread : g.read start cs with
  | none furthest expected =>
    rw [hread] at hlow
    exact absurd rfl (hlow t)
  | one t' =>
    rw [hread] at hlow
    rw [(hlow t').mpr rfl]
  | several =>
    rw [hread] at hlow
    obtain ⟨t₁, t₂, hne, rfl, rfl⟩ := hlow
    exact absurd rfl hne

end Cfg

end Covenant
