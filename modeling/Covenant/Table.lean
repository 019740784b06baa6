/-!
Tables that remember the order of insertion.

A table is a list of named entries. `put` keeps the place of a name that is
already present and appends a new one, so a table built by `put` alone has each
name once.
-/

namespace Covenant

abbrev Table (α : Type) := List (String × α)

namespace Table

variable {α : Type}

/-- The entry named `key`. -/
def find? (t : Table α) (key : String) : Option α :=
  List.lookup key t

/-- Whether there is an entry named `key`. -/
def has (t : Table α) (key : String) : Bool :=
  t.any fun e => e.1 == key

/-- Gives `key` the value `v`: in place if the key is present, at the end
otherwise. -/
def put : Table α → String → α → Table α
  | [], key, v => [(key, v)]
  | (k, w) :: t, key, v => if k == key then (k, v) :: t else (k, w) :: put t key v

/-- The table without `key`. -/
def drop (t : Table α) (key : String) : Table α :=
  t.filter fun e => e.1 != key

/-- Inserts entries from first to last: a repeated name keeps its first place
and its last value. -/
def ofList (entries : List (String × α)) : Table α :=
  entries.foldl (fun t e => t.put e.1 e.2) []

def names (t : Table α) : List String :=
  t.map Prod.fst

def values (t : Table α) : List α :=
  t.map Prod.snd

/-! ### Views -/

@[simp] theorem names_nil : names ([] : Table α) = [] := rfl

theorem names_put (t : Table α) (key : String) (v : α) :
    (t.put key v).names = if key ∈ t.names then t.names else t.names ++ [key] := by
  induction t with
  | nil => simp [put, names]
  | cons e t ih =>
    obtain ⟨k, w⟩ := e
    by_cases h : k = key
    · simp [put, names, h]
    · have h' : key ≠ k := fun hk => h hk.symm
      simp only [names] at ih
      by_cases hm : key ∈ t.map Prod.fst <;> simp_all [put, names]

theorem nodup_names_put {t : Table α} (h : t.names.Nodup) (key : String) (v : α) :
    (t.put key v).names.Nodup := by
  rw [names_put]
  split
  · exact h
  · rename_i hk
    exact List.nodup_append.2 ⟨h, by simp, fun a ha b hb hab => hk (by simp_all)⟩

end Table

end Covenant
