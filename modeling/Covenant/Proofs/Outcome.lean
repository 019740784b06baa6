import Mathlib
import Covenant.Fault

/-!
Results that may fail, taken apart.

* `bind_eq_ok`, `map_eq_ok`: a sequence of steps succeeds when every step does.
* `bind_eq_error`, `map_eq_error`: it fails when one of them does.
* `mapM_eq_ok_iff`: so does a step for every element of a list.
* `mapM_perm`: in whatever order.
* `foldlM_invariant`: what every step of a sequence keeps holds at its end.
* `exists_of_mem_foldlM`: where it succeeds, so did each of its steps.
* `filterM_eq_ok_filter`: a choice that always succeeds is a filter.
-/

namespace Covenant.Outcome

variable {α β γ ε : Type}

theorem bind_eq_ok {x : Except ε α} {f : α → Except ε β} {b : β} :
    x >>= f = .ok b ↔ ∃ a, x = .ok a ∧ f a = .ok b := by
  cases x with
  | error e => simp [bind, Except.bind]
  | ok a => simp [bind, Except.bind]

theorem map_eq_ok {x : Except ε α} {f : α → β} {b : β} :
    x.map f = .ok b ↔ ∃ a, x = .ok a ∧ f a = b := by
  cases x with
  | error e => simp [Except.map]
  | ok a => simp [Except.map]

theorem bind_eq_error {x : Except ε α} {f : α → Except ε β} {e : ε} :
    x >>= f = .error e ↔ x = .error e ∨ ∃ a, x = .ok a ∧ f a = .error e := by
  cases x with
  | error e' => simp [bind, Except.bind]
  | ok a => simp [bind, Except.bind]

theorem map_eq_error {x : Except ε α} {f : α → β} {e : ε} :
    x.map f = .error e ↔ x = .error e := by
  cases x <;> simp [Except.map]

theorem isOk_iff {x : Except ε α} : x.isOk = true ↔ ∃ a, x = .ok a := by
  cases x <;> simp [Except.isOk, Except.toBool]

/-- What a result is tested for holds of it. -/
theorem exists_of_any {x : Except ε α} {test : α → Bool} (h : x.toOption.any test = true) :
    ∃ a, x = .ok a ∧ test a = true := by
  cases x with
  | error e => cases h
  | ok a => exact ⟨a, rfl, h⟩

/-- A first result in front of others. -/
theorem cons_eq_ok {x : Except ε α} {y : Except ε (List α)} {as : List α} :
    (do let a ← x; let rest ← y; return a :: rest) = .ok as ↔
      ∃ a rest, x = .ok a ∧ y = .ok rest ∧ as = a :: rest := by
  simp only [bind_eq_ok, pure, Except.pure, Except.ok.injEq]
  constructor
  · rintro ⟨a, ha, rest, hrest, rfl⟩
    exact ⟨a, rest, ha, hrest, rfl⟩
  · rintro ⟨a, rest, ha, hrest, rfl⟩
    exact ⟨a, ha, rest, hrest, rfl⟩

theorem mapM_cons_ok {f : α → Except ε β} {a : α} {as : List α} {bs : List β} :
    (a :: as).mapM f = .ok bs ↔ ∃ b, f a = .ok b ∧ ∃ rest, as.mapM f = .ok rest ∧ bs = b :: rest := by
  rw [List.mapM_cons, cons_eq_ok]
  simp only [exists_and_left]

/-- **A step for every element** succeeds when each single step does. -/
theorem mapM_eq_ok_iff {f : α → Except ε β} {as : List α} {bs : List β} :
    as.mapM f = .ok bs ↔ List.Forall₂ (fun a b => f a = .ok b) as bs := by
  induction as generalizing bs with
  | nil =>
    rw [List.mapM_nil, List.forall₂_nil_left_iff]
    simp [pure, Except.pure, eq_comm]
  | cons a as ih =>
    rw [mapM_cons_ok, List.forall₂_cons_left_iff]
    simp only [ih]
    constructor
    · rintro ⟨b, hb, rest, hrest, rfl⟩
      exact ⟨b, rest, hb, hrest, rfl⟩
    · rintro ⟨b, rest, hb, hrest, rfl⟩
      exact ⟨b, hb, rest, hrest, rfl⟩

/-- Each result of steps for every element is the result of one of them. -/
theorem exists_of_mem_mapM {f : α → Except ε β} {as : List α} {bs : List β}
    (h : as.mapM f = .ok bs) {b : β} (hb : b ∈ bs) : ∃ a ∈ as, f a = .ok b := by
  have hall := mapM_eq_ok_iff.mp h
  induction hall with
  | nil => cases hb
  | @cons a c as bs hac hrest ih =>
    rcases List.mem_cons.mp hb with rfl | hb
    · exact ⟨a, by simp, hac⟩
    · obtain ⟨a', ha', hab⟩ := ih (mapM_eq_ok_iff.mpr hrest) hb
      exact ⟨a', by simp [ha'], hab⟩

/-- **Steps for every element** fail when one of them does. -/
theorem exists_of_mapM_error {f : α → Except ε β} {as : List α} {e : ε}
    (h : as.mapM f = .error e) : ∃ a ∈ as, f a = .error e := by
  induction as with
  | nil => cases h
  | cons a as ih =>
    rw [List.mapM_cons] at h
    rcases bind_eq_error.mp h with h | ⟨b, _, h⟩
    · exact ⟨a, by simp, h⟩
    · rcases bind_eq_error.mp h with h | ⟨bs, _, h⟩
      · obtain ⟨a', ha', h⟩ := ih h
        exact ⟨a', by simp [ha'], h⟩
      · cases h

/-- **Steps for the elements in another order** give the same results in another order. -/
theorem mapM_perm {f : α → Except ε β} {as as' : List α} (hperm : as.Perm as') {bs : List β}
    (h : as.mapM f = .ok bs) : ∃ bs', as'.mapM f = .ok bs' ∧ bs.Perm bs' := by
  obtain ⟨bs', hbs', hperm'⟩ : Relation.Comp (List.Forall₂ fun a b => f a = .ok b) List.Perm as' bs :=
    List.perm_comp_forall₂ hperm.symm (mapM_eq_ok_iff.mp h)
  exact ⟨bs', mapM_eq_ok_iff.mpr hbs', hperm'.symm⟩

/-- A beginning of the elements gives a beginning of the results. -/
theorem mapM_take {f : α → Except ε β} {as : List α} {bs : List β} (h : as.mapM f = .ok bs)
    (k : Nat) : (as.take k).mapM f = .ok (bs.take k) :=
  mapM_eq_ok_iff.mpr (List.forall₂_take k (mapM_eq_ok_iff.mp h))

/-- The results of steps that are known to succeed. -/
theorem mapM_eq_ok_map {f : α → Except ε β} {g : α → β} {as : List α}
    (h : ∀ a ∈ as, f a = .ok (g a)) : as.mapM f = .ok (as.map g) := by
  rw [mapM_eq_ok_iff, List.forall₂_map_right_iff]
  exact List.forall₂_same.mpr h

/-- **What every step of a sequence keeps** holds of its result. -/
theorem foldlM_invariant {P : β → Prop} {f : β → α → Except ε β} {as : List α} {b b' : β}
    (hb : P b) (hstep : ∀ a ∈ as, ∀ b b', P b → f b a = .ok b' → P b')
    (h : as.foldlM f b = .ok b') : P b' := by
  induction as generalizing b with
  | nil =>
    cases h
    exact hb
  | cons a as ih =>
    rw [List.foldlM_cons, bind_eq_ok] at h
    obtain ⟨b₁, hb₁, h⟩ := h
    exact ih (hstep a (by simp) b b₁ hb hb₁) (fun a ha => hstep a (by simp [ha])) h

/-- A sequence of steps succeeds only if every step does. -/
theorem exists_of_mem_foldlM {f : β → α → Except ε β} {as : List α} {b b' : β}
    (h : as.foldlM f b = .ok b') {a : α} (ha : a ∈ as) : ∃ x y, f x a = .ok y := by
  induction as generalizing b with
  | nil => cases ha
  | cons a' as ih =>
    rw [List.foldlM_cons, bind_eq_ok] at h
    obtain ⟨b₁, hb₁, h⟩ := h
    rcases List.mem_cons.mp ha with rfl | ha
    · exact ⟨b, b₁, hb₁⟩
    · exact ih h ha

theorem filterAuxM_eq_ok {f : α → Except ε Bool} {p : α → Bool} {as acc : List α}
    (h : ∀ a ∈ as, f a = .ok (p a)) :
    List.filterAuxM f as acc = .ok ((as.filter p).reverse ++ acc) := by
  induction as generalizing acc with
  | nil => rfl
  | cons a as ih =>
    have ha : f a = .ok (p a) := h a (by simp)
    have hrest := fun acc => @ih acc fun b hb => h b (by simp [hb])
    rw [List.filterAuxM, ha]
    simp only [bind, Except.bind, hrest]
    cases hp : p a <;> simp [hp]

/-- A choice that is known to succeed for every element. -/
theorem filterM_eq_ok_filter {f : α → Except ε Bool} {p : α → Bool} {as : List α}
    (h : ∀ a ∈ as, f a = .ok (p a)) : as.filterM f = .ok (as.filter p) := by
  rw [List.filterM, filterAuxM_eq_ok h]
  simp [bind, Except.bind, pure, Except.pure]

end Covenant.Outcome
