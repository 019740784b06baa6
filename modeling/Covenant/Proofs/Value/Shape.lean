import Covenant.Proofs.Outcome
import Covenant.Value.Shape

/-!
Readings of values, taken apart, and values that are compared.

A reading succeeds when the readings it is made of do, and every part of its result
was read from a part of the value. Values without doubles are compared by `Value.identical`.
-/

namespace Covenant.Shape

variable {α β : Type}

theorem join_eq_ok {f : Checked (α → β)} {x : Checked α} {b : β} :
    Checked.join f x = .ok b ↔ ∃ g, f = .ok g ∧ ∃ a, x = .ok a ∧ g a = b := by
  cases f <;> cases x <;> simp [Checked.join]

theorem under_eq_ok {step : String} {x : Checked α} {a : α} :
    Checked.under step x = .ok a ↔ x = .ok a := by
  cases x <;> simp [Checked.under, Except.mapError]

/-- **What is refused is not read.** -/
theorem refuse_eq_ok {reason : α → Option String} {x : Checked α} {a : α} :
    Checked.refuse reason x = .ok a ↔ x = .ok a ∧ reason a = none := by
  cases x with
  | error e => simp [Checked.refuse, Except.bind]
  | ok b =>
    simp only [Checked.refuse, Except.bind, Except.ok.injEq]
    constructor
    · intro h
      split at h
      · cases h
      · rename_i hnone
        cases h
        exact ⟨rfl, hnone⟩
    · rintro ⟨rfl, hnone⟩
      rw [hnone]

theorem field_eq_ok {fields : List (String × Value)} {name : String}
    {read : Value → Checked α} {a : α} (h : field fields name read = .ok a) :
    ∃ v, Table.find? fields name = some v ∧ read v = .ok a := by
  unfold field at h
  split at h
  · rename_i v hv
    exact ⟨v, hv, under_eq_ok.mp h⟩
  · cases under_eq_ok.mp h

theorem fieldOr_eq_ok {fields : List (String × Value)} {name : String} {default : α}
    {read : Value → Checked α} {a : α} (h : fieldOr fields name default read = .ok a) :
    a = default ∨ ∃ v, read v = .ok a := by
  unfold fieldOr at h
  split at h
  · exact .inr ⟨_, under_eq_ok.mp h⟩
  · cases h
    exact .inl rfl

theorem mem_itemsFrom {read : Value → Checked α} {i : Nat} {vs : List Value} {as : List α}
    (h : itemsFrom read i vs = .ok as) {a : α} (ha : a ∈ as) : ∃ v, read v = .ok a := by
  induction vs generalizing i as with
  | nil =>
    cases h
    cases ha
  | cons v vs ih =>
    obtain ⟨g, hg, rest, hrest, rfl⟩ := join_eq_ok.mp h
    obtain ⟨b, hb, rfl⟩ := Outcome.map_eq_ok.mp (under_eq_ok.mp hg)
    rcases List.mem_cons.mp ha with rfl | ha
    · exact ⟨v, hb⟩
    · exact ih hrest ha

/-- **Every item was read.** -/
theorem mem_items {read : Value → Checked α} {v : Value} {as : List α}
    (h : items read v = .ok as) {a : α} (ha : a ∈ as) : ∃ v, read v = .ok a := by
  cases v with
  | list vs => exact mem_itemsFrom h ha
  | _ => cases h

end Covenant.Shape

/-! ### Values that are compared -/

namespace Covenant.Value

mutual

/-- Whether two values without doubles are the same. -/
def identical : Value → Value → Bool
  | .null, .null => true
  | .bool b, .bool c => b == c
  | .int m, .int n => m == n
  | .text s, .text t => s == t
  | .list vs, .list ws => identicalItems vs ws
  | .object fields, .object fields' => identicalFields fields fields'
  | _, _ => false

/-- Whether two lists of values without doubles are the same. -/
def identicalItems : List Value → List Value → Bool
  | [], [] => true
  | v :: vs, w :: ws => v.identical w && identicalItems vs ws
  | _, _ => false

/-- Whether the entries of two objects without doubles are the same. -/
def identicalFields : List (String × Value) → List (String × Value) → Bool
  | [], [] => true
  | (k, v) :: fields, (l, w) :: fields' => k == l && v.identical w && identicalFields fields fields'
  | _, _ => false

end

mutual

theorem eq_of_identical {v w : Value} (h : v.identical w = true) : v = w := by
  cases v <;> cases w <;> simp only [identical, Bool.false_eq_true, beq_iff_eq] at h
  case null.null => rfl
  case bool.bool => rw [h]
  case int.int => rw [h]
  case text.text => rw [h]
  case list.list => rw [eq_of_identicalItems h]
  case object.object => rw [eq_of_identicalFields h]

theorem eq_of_identicalItems {vs ws : List Value} (h : identicalItems vs ws = true) : vs = ws := by
  cases vs <;> cases ws <;>
    simp only [identicalItems, Bool.false_eq_true, Bool.and_eq_true] at h
  case nil.nil => rfl
  case cons.cons => rw [eq_of_identical h.1, eq_of_identicalItems h.2]

theorem eq_of_identicalFields {fields fields' : List (String × Value)}
    (h : identicalFields fields fields' = true) : fields = fields' := by
  cases fields <;> cases fields' <;>
    simp only [identicalFields, Bool.false_eq_true, Bool.and_eq_true, beq_iff_eq] at h
  case nil.nil => rfl
  case cons.cons =>
    rw [Prod.ext h.1.1 (eq_of_identical h.1.2), eq_of_identicalFields h.2]

end

end Covenant.Value
