import Mathlib
import Covenant.Table

/-!
Tables with each name once.

* `Table.find_eq_some_iff`: such a table finds exactly its entries.
* `Table.find_put`: what is found with one more entry.
* `Table.nodup_names_foldl_put`: tables built entry by entry are of this kind.
* `Table.foldl_put_append`: entries of other names are added behind a table.
* `Table.ofList_eq_self`: entries of different names are a table.
* `Table.find_ofList`: of entries of the same name the last one is found.
* `Table.find_mapValues`, `Table.find_filter`: what is found with other values, and among fewer
  entries.
* `Table.find_perm`: the order of the entries does not matter.
-/

namespace Covenant.Table

variable {α β : Type}

theorem mem_of_find {t : Table α} {key : String} {v : α} (h : t.find? key = some v) :
    (key, v) ∈ t := by
  induction t with
  | nil => cases h
  | cons e t ih =>
    obtain ⟨k, w⟩ := e
    by_cases hk : key = k
    · subst hk
      have hw : w = v := by simpa [find?, List.lookup] using h
      simp [hw]
    · have hne : (key == k) = false := beq_false_of_ne hk
      rw [find?, List.lookup, hne] at h
      exact List.mem_cons_of_mem _ (ih h)

theorem has_iff {t : Table α} {key : String} : t.has key = true ↔ key ∈ t.names := by
  simp [has, names]

theorem find_eq_none_iff {t : Table α} {key : String} : t.find? key = none ↔ key ∉ t.names := by
  induction t with
  | nil => simp [find?]
  | cons e t ih =>
    obtain ⟨k, w⟩ := e
    by_cases hk : key = k
    · simp [find?, List.lookup, names, hk]
    · have hne : (key == k) = false := beq_false_of_ne hk
      rw [find?, List.lookup, hne]
      simp only [names, List.map_cons, List.mem_cons, hk, false_or]
      exact ih

theorem exists_find {t : Table α} {key : String} (h : key ∈ t.names) :
    ∃ v, t.find? key = some v := by
  cases hfind : t.find? key with
  | none => exact absurd h (find_eq_none_iff.mp hfind)
  | some v => exact ⟨v, rfl⟩

theorem mem_names_of_find {t : Table α} {key : String} {v : α} (h : t.find? key = some v) :
    key ∈ t.names :=
  List.mem_map.mpr ⟨(key, v), mem_of_find h, rfl⟩

/-- **A table with each name once finds exactly its entries.** -/
theorem find_eq_some_iff {t : Table α} (ht : t.names.Nodup) {key : String} {v : α} :
    t.find? key = some v ↔ (key, v) ∈ t := by
  refine ⟨mem_of_find, fun h => ?_⟩
  obtain ⟨w, hw⟩ := exists_find (List.mem_map.mpr ⟨(key, v), h, rfl⟩)
  have hvw : (key, w) = (key, v) :=
    List.inj_on_of_nodup_map ht (mem_of_find hw) h rfl
  rw [hw, (Prod.mk.inj hvw).2]

theorem find_cons (k : String) (v : α) (t : Table α) (x : String) :
    find? ((k, v) :: t) x = if x = k then some v else find? t x := by
  rw [find?, List.lookup_cons, find?]
  by_cases hx : x = k
  · simp [hx]
  · rw [if_neg hx, beq_false_of_ne hx]

/-- Looking up after a `put`. -/
theorem find_put (t : Table α) (key : String) (v : α) (x : String) :
    (t.put key v).find? x = if x = key then some v else t.find? x := by
  induction t with
  | nil => exact find_cons key v [] x
  | cons e t ih =>
    obtain ⟨k, w⟩ := e
    rw [put]
    by_cases hk : k = key
    · subst hk
      rw [if_pos (beq_self_eq_true k), find_cons, find_cons]
      split <;> rfl
    · rw [if_neg (by simpa using hk), find_cons, find_cons, ih]
      by_cases hx : x = k
      · rw [if_pos hx, if_pos hx, if_neg (hx ▸ hk)]
      · rw [if_neg hx, if_neg hx]

/-- The keys after a `put`. -/
theorem mem_names_put {t : Table α} {key : String} {v : α} {x : String} :
    x ∈ (t.put key v).names ↔ x = key ∨ x ∈ t.names := by
  rw [names_put]
  split
  · exact ⟨.inr, fun h => h.elim (fun h => h ▸ ‹_›) id⟩
  · simp [or_comm]

/-- A table built by `put` has no key twice. -/
theorem nodup_names_foldl_put {entries : List (String × α)} {t : Table α} (ht : t.names.Nodup) :
    (entries.foldl (fun t e => t.put e.1 e.2) t).names.Nodup := by
  induction entries generalizing t with
  | nil => exact ht
  | cons e entries ih => exact ih (nodup_names_put ht e.1 e.2)

theorem mem_put {t : Table α} {key : String} {v : α} {e : String × α} (h : e ∈ t.put key v) :
    e ∈ t ∨ e = (key, v) := by
  induction t with
  | nil => exact .inr (by simpa [put] using h)
  | cons d t ih =>
    obtain ⟨k, w⟩ := d
    rw [put] at h
    split at h
    · rename_i hk
      rcases List.mem_cons.mp h with rfl | h
      · exact .inr (by simpa using hk)
      · exact .inl (by simp [h])
    · rcases List.mem_cons.mp h with rfl | h
      · exact .inl (by simp)
      · rcases ih h with h | h
        · exact .inl (by simp [h])
        · exact .inr h

theorem mem_foldl_put {entries : List (String × α)} {t : Table α} {e : String × α}
    (h : e ∈ entries.foldl (fun t e => t.put e.1 e.2) t) : e ∈ t ∨ e ∈ entries := by
  induction entries generalizing t with
  | nil => exact .inl h
  | cons d entries ih =>
    rcases ih h with h | h
    · rcases mem_put h with h | rfl
      · exact .inl h
      · exact .inr (by simp)
    · exact .inr (by simp [h])

/-- A key that is not in the front part is put into the back. -/
theorem put_append {t : Table α} {key : String} (h : key ∉ t.names) (u : Table α) (v : α) :
    Table.put (t ++ u) key v = t ++ u.put key v := by
  induction t with
  | nil => rfl
  | cons e t ih =>
    obtain ⟨k, w⟩ := e
    simp only [names, List.map_cons, List.mem_cons, not_or] at h
    have hne : (k == key) = false := beq_false_of_ne fun hk => h.1 hk.symm
    simp only [List.cons_append, put, hne, Bool.false_eq_true, if_false, ih h.2]

/-- **Entries of other names** are added behind a table as they are added to an empty
one. -/
theorem foldl_put_append {t : Table α} {entries : List (String × α)}
    (h : ∀ e ∈ entries, e.1 ∉ t.names) (u : Table α) :
    entries.foldl (fun t e => t.put e.1 e.2) (t ++ u)
      = t ++ entries.foldl (fun t e => t.put e.1 e.2) u := by
  induction entries generalizing u with
  | nil => rfl
  | cons e entries ih =>
    rw [List.foldl_cons, put_append (h e (by simp))]
    exact ih (fun e he => h e (by simp [he])) _

/-- **Entries of different names** make a table of these entries. -/
theorem ofList_eq_self {entries : List (String × α)} (h : (names entries).Nodup) :
    ofList entries = entries := by
  have hfold : ∀ (entries : List (String × α)) (t : Table α), (names (t ++ entries)).Nodup →
      entries.foldl (fun t e => t.put e.1 e.2) t = t ++ entries := by
    intro entries
    induction entries with
    | nil => simp
    | cons e entries ih =>
      intro t ht
      have hnew : e.1 ∉ t.names := by
        rw [names, List.map_append, List.nodup_append] at ht
        exact fun he => ht.2.2 _ he _ (by simp) rfl
      have hput : t.put e.1 e.2 = t ++ [e] := by
        simpa [put] using put_append hnew [] e.2
      rw [List.foldl_cons, hput, ih _ (by simpa using ht), List.append_assoc]
      rfl
  exact hfold entries [] h

/-- **Of entries of the same name** the last one is found. -/
theorem find_ofList {entries : List (String × α)} {key : String} {v : α} :
    (ofList entries).find? key = some v ↔
      ∃ before after, entries = before ++ (key, v) :: after ∧ key ∉ names after := by
  induction entries using List.reverseRecOn with
  | nil => simp [ofList, find?]
  | append_singleton entries e ih =>
    obtain ⟨k, w⟩ := e
    have hput : ofList (entries ++ [(k, w)]) = (ofList entries).put k w := by
      rw [ofList, List.foldl_append]
      rfl
    rw [hput, find_put]
    constructor
    · intro h
      split at h
      · rename_i hkey
        subst hkey
        cases h
        exact ⟨entries, [], rfl, List.not_mem_nil⟩
      · rename_i hkey
        obtain ⟨before, after, rfl, hlast⟩ := ih.mp h
        refine ⟨before, after ++ [(k, w)], by simp, ?_⟩
        simpa [names, hkey] using hlast
    · rintro ⟨before, after, heq, hlast⟩
      rcases List.eq_nil_or_concat after with rfl | ⟨after, e, rfl⟩
      · obtain ⟨-, heq⟩ := List.append_inj' heq rfl
        cases heq
        exact if_pos rfl
      · rw [List.concat_eq_append, ← List.cons_append, ← List.append_assoc] at heq
        obtain ⟨rfl, hentry⟩ := List.append_inj' heq rfl
        obtain rfl := List.singleton_inj.mp hentry
        simp only [names, List.concat_eq_append, List.map_append, List.map_singleton,
          List.mem_append, List.mem_singleton, not_or] at hlast
        rw [if_neg hlast.2]
        exact ih.mpr ⟨before, after, rfl, hlast.1⟩

/-! ### Other values, and fewer entries -/

def mapValues (f : α → β) (t : Table α) : Table β :=
  t.map fun e => (e.1, f e.2)

@[simp] theorem names_mapValues (f : α → β) (t : Table α) : (t.mapValues f).names = t.names := by
  rw [mapValues, names, List.map_map]
  rfl

/-- Looking up in a table of mapped values. -/
theorem find_mapValues (f : α → β) (t : Table α) (key : String) :
    (t.mapValues f).find? key = (t.find? key).map f := by
  induction t with
  | nil => rfl
  | cons e t ih =>
    rw [find?, find?] at ih ⊢
    rw [mapValues, List.map_cons, List.lookup_cons, List.lookup_cons]
    cases key == e.1
    · exact ih
    · rfl

/-- Putting a mapped value. -/
theorem put_mapValues (f : α → β) (t : Table α) (key : String) (v : α) :
    (t.mapValues f).put key (f v) = (t.put key v).mapValues f := by
  induction t with
  | nil => rfl
  | cons e t ih =>
    obtain ⟨k, w⟩ := e
    rw [mapValues] at ih
    rw [mapValues, List.map_cons, put, put, ih]
    split <;> rfl

theorem ofList_mapValues (f : α → β) (entries : List (String × α)) :
    ofList (mapValues f entries) = (ofList entries).mapValues f := by
  have hfold : ∀ t : Table α, (mapValues f entries).foldl (fun t e => t.put e.1 e.2) (t.mapValues f) =
      (entries.foldl (fun t e => t.put e.1 e.2) t).mapValues f := by
    induction entries with
    | nil => exact fun _ => rfl
    | cons e entries ih =>
      intro t
      rw [List.foldl_cons, ← ih, ← put_mapValues]
      rfl
  exact hfold []

theorem filter_mapValues (f : α → β) (t : Table α) (p : String → Bool) :
    (t.mapValues f).filter (fun e => p e.1) = mapValues f (t.filter fun e => p e.1) :=
  List.filter_map

/-- Looking up among the entries a test on keys lets through. -/
theorem find_filter (t : Table α) (p : String → Bool) (key : String) :
    find? (t.filter fun e => p e.1) key = if p key then t.find? key else none := by
  induction t with
  | nil => simp [find?]
  | cons e t ih =>
    obtain ⟨k, v⟩ := e
    rw [find?] at ih ⊢
    rw [find?, List.lookup_cons]
    by_cases hkey : key = k
    · subst hkey
      cases hp : p key
      · rw [List.filter_cons_of_neg (by simp [hp]), ih, if_neg (by simp [hp]), if_neg (by simp)]
      · rw [List.filter_cons_of_pos (by simp [hp]), List.lookup_cons]
        simp
    · rw [beq_false_of_ne hkey, List.filter_cons]
      split
      · rw [List.lookup_cons, beq_false_of_ne hkey]
        exact ih
      · exact ih

/-! ### Order -/

section Perm

variable {t u : Table α}

/-- Rearranging a table rearranges its keys. -/
theorem names_perm (h : t.Perm u) : t.names.Perm u.names :=
  h.map Prod.fst

theorem has_perm (h : t.Perm u) (key : String) : t.has key = u.has key := by
  rw [Bool.eq_iff_iff, has_iff, has_iff]
  exact (names_perm h).mem_iff

/-- **Entries in another order** are found in the same way. -/
theorem find_perm (ht : t.names.Nodup) (h : t.Perm u) (key : String) :
    t.find? key = u.find? key := by
  ext v
  rw [find_eq_some_iff ht, find_eq_some_iff ((names_perm h).nodup_iff.mp ht)]
  exact h.mem_iff

end Perm

end Covenant.Table
