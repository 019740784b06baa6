import Covenant.Proofs.Schema.JsonSchema
import Covenant.Proofs.Value.Shape

/-!
Validators that keep what they have compiled.

* `Validator.run_catalog`, `Validator.find_run`: what a validator has compiled after any steps is
  the catalog in which each type was first asked for.
* `Validator.validate_run`: a validator answers as its catalog does as long as that is unchanged.
* `Catalog.Reached.validates_instances`: a validator accepts exactly the instances of a type in the
  catalog in which the type was first asked for, which are those of the present catalog as long as
  the schema of the type is still the same.
-/

namespace Covenant

namespace Catalog

/-- The type that a step has compiled, unless it is compiled before. -/
def compiles? (c : Catalog) : Validator.Step → Option String
  | .add .. => none
  | .validate v type | .check v type =>
    match c.typeAsked v type with
    | .ok (.ok fqn) => if (c.components fqn).isOk then some fqn else none
    | _ => none

def next (c : Catalog) : Validator.Step → Catalog
  | .add v file => (c.add v file).2
  | _ => c

def after (c : Catalog) (steps : List Validator.Step) : Catalog :=
  steps.foldl next c

/-- The catalog in which a type is compiled, if any of the steps asks for it. -/
def compiledIn? (c : Catalog) (fqn : String) : List Validator.Step → Option Catalog
  | [] => none
  | e :: es => if c.compiles? e = some fqn then some c else (c.next e).compiledIn? fqn es

end Catalog

namespace Validator

variable {s : Validator}

/-! ### One step -/

theorem compile_catalog (fqn : String) : (s.compile fqn).2.catalog = s.catalog := by
  unfold compile
  split
  · rfl
  · split <;> rfl

theorem find_compile (fqn x : String) : (s.compile fqn).2.compiled.find? x =
    (s.compiled.find? x).or
      (if (s.catalog.components fqn).isOk ∧ fqn = x then some s.catalog else none) := by
  unfold compile
  cases hfind : s.compiled.find? fqn with
  | some c =>
    by_cases hx : fqn = x
    · subst hx
      simp [hfind]
    · simp [hx]
  | none =>
    cases hcomponents : s.catalog.components fqn with
    | error f => simp [Except.isOk, Except.toBool]
    | ok types =>
      simp only [Table.find_put]
      by_cases hx : x = fqn
      · subst hx
        simp [hfind, Except.isOk, Except.toBool]
      · have hx' : fqn ≠ x := fun h => hx h.symm
        simp [hx, hx']

/-- What a type is checked in: the catalog in which it was compiled, or else the present one. -/
theorem compile_fst (fqn : String) : (s.compile fqn).1 =
    match s.compiled.find? fqn with
    | some c => .ok c
    | none => (s.catalog.components fqn).map fun _ => s.catalog := by
  unfold compile
  cases s.compiled.find? fqn with
  | some c => rfl
  | none => cases s.catalog.components fqn <;> rfl

theorem validate_snd (v : Value) (type : Option String) : (s.validate v type).2 =
    match s.catalog.typeAsked v type with
    | .ok (.ok fqn) => (s.compile fqn).2
    | _ => s := by
  unfold validate
  split <;> rename_i h <;> simp only [h]

theorem validate_catalog (v : Value) (type : Option String) :
    (s.validate v type).2.catalog = s.catalog := by
  rw [validate_snd]
  split
  · exact compile_catalog _
  · rfl

theorem find_validate (v : Value) (type : Option String) (x : String) :
    (s.validate v type).2.compiled.find? x = (s.compiled.find? x).or
      (if s.catalog.compiles? (.validate v type) = some x then some s.catalog else none) := by
  rw [validate_snd, Catalog.compiles?]
  split
  · rename_i fqn h
    rw [find_compile]
    by_cases hok : (s.catalog.components fqn).isOk = true <;> simp [hok]
  · simp

/-- **A step leads to the next catalog.** -/
theorem step_catalog (e : Step) : (s.step e).catalog = s.catalog.next e := by
  cases e with
  | add v file => rfl
  | validate v type => exact validate_catalog v type
  | check v type => exact validate_catalog v type

/-- **A step keeps what is compiled**, and adds at most the type that it asks for, in the present
catalog. -/
theorem find_step (e : Step) (x : String) : (s.step e).compiled.find? x =
    (s.compiled.find? x).or (if s.catalog.compiles? e = some x then some s.catalog else none) := by
  cases e with
  | add v file => simp [step, Catalog.compiles?]
  | validate v type => exact find_validate v type x
  | check v type => exact find_validate v type x

/-! ### Several steps -/

/-- **Steps change the catalog by their additions only.** -/
theorem run_catalog (es : List Step) : (s.run es).catalog = s.catalog.after es := by
  induction es generalizing s with
  | nil => rfl
  | cons e es ih => rw [run, List.foldl_cons, ← run, ih, step_catalog, Catalog.after,
      Catalog.after, List.foldl_cons]

/-- **What is compiled after any steps**: what was compiled before them, and the other types in the
catalogs in which they were first asked for. -/
theorem find_run (es : List Step) (x : String) : (s.run es).compiled.find? x =
    (s.compiled.find? x).or (s.catalog.compiledIn? x es) := by
  induction es generalizing s with
  | nil => simp [run, Catalog.compiledIn?]
  | cons e es ih =>
    rw [run, List.foldl_cons, ← run, ih, find_step, step_catalog, Option.or_assoc,
      Catalog.compiledIn?]
    split <;> simp

/-! ### Answers -/

/-- What a validator says of data, in the catalogs in which its types are checked. -/
theorem validate_eq (hs : ∀ fqn c, s.compiled.find? fqn = some c → c = s.catalog) (v : Value)
    (type : Option String) : (s.validate v type).1 = s.catalog.validate v type := by
  have hfqn : ∀ fqn, ((s.compile fqn).1.bind fun c => c.violations fqn v) =
      s.catalog.violations fqn v := by
    intro fqn
    rw [compile_fst]
    split
    · rename_i c hc
      rw [hs fqn c hc]
      rfl
    · unfold Catalog.violations
      cases hcomponents : s.catalog.components fqn with
      | error f => rfl
      | ok types => simp [Except.map, Except.bind, hcomponents, bind]
  cases type with
  | some fqn => exact hfqn fqn
  | none =>
    unfold validate Catalog.validate
    simp only [Catalog.typeAsked]
    cases s.catalog.namedType v with
    | error f => rfl
    | ok named =>
      cases named with
      | error message => rfl
      | ok fqn => exact hfqn fqn

end Validator

namespace Catalog

variable {c : Catalog}

/-- Steps that leave a catalog as it is compile types in it only. -/
theorem unchanged {es : List Validator.Step} (hes : ∀ e ∈ es, c.next e = c) :
    c.after es = c ∧ ∀ fqn d, c.compiledIn? fqn es = some d → d = c := by
  induction es with
  | nil => exact ⟨rfl, fun _ _ h => nomatch h⟩
  | cons e es ih =>
    obtain ⟨he, hes⟩ := List.forall_mem_cons.mp hes
    obtain ⟨hafter, hcompiled⟩ := ih hes
    refine ⟨by rw [after, List.foldl_cons, he, ← after, hafter], fun fqn d h => ?_⟩
    rw [compiledIn?, he] at h
    split at h
    · exact (Option.some.inj h).symm
    · exact hcompiled fqn d h

end Catalog

/-- **As long as its catalog is unchanged, a validator answers as the catalog does**, whatever it has
been asked before. -/
theorem Validator.validate_run {c : Catalog} {es : List Step} (hes : ∀ e ∈ es, c.next e = c)
    (v : Value) (type : Option String) :
    (((fresh c).run es).validate v type).1 = c.validate v type := by
  obtain ⟨hafter, hcompiled⟩ := Catalog.unchanged hes
  have hcatalog : ((fresh c).run es).catalog = c := by
    rw [run_catalog]
    exact hafter
  rw [validate_eq (fun fqn d hd => ?_), hcatalog]
  rw [find_run] at hd
  exact (hcompiled fqn d hd).trans hcatalog.symm

namespace Catalog

variable {c d : Catalog}

theorem Reached.after (hc : c.Reached) (es : List Validator.Step) : (c.after es).Reached := by
  induction es generalizing c with
  | nil => exact hc
  | cons e es ih =>
    refine ih ?_
    cases e with
    | add v file => exact hc.add v file
    | validate v type => exact hc
    | check v type => exact hc

theorem has_of_components {fqn : String} (h : (c.components fqn).isOk = true) :
    c.has fqn = true := by
  by_contra hfqn
  have hnone : c.types.find? fqn = none :=
    Table.find_eq_none_iff.mpr fun hmem => hfqn (Table.has_iff.mpr hmem)
  rw [components, ← remaining_nil, explore] at h
  simp [get, hnone, Outcome.fail, bind, Except.bind, Except.isOk, Except.toBool] at h

/-- The catalog in which a type is compiled declares it. -/
theorem Reached.compiledIn (hc : c.Reached) {fqn : String} {es : List Validator.Step}
    (h : c.compiledIn? fqn es = some d) : d.Reached ∧ d.has fqn = true := by
  induction es generalizing c with
  | nil => cases h
  | cons e es ih =>
    rw [compiledIn?] at h
    split at h
    · rename_i hcompiles
      obtain rfl := Option.some.inj h
      refine ⟨hc, has_of_components ?_⟩
      unfold compiles? at hcompiles
      split at hcompiles
      · cases hcompiles
      all_goals
        split at hcompiles
        · split at hcompiles
          · rename_i hok
            exact Option.some.inj hcompiles ▸ hok
          · cases hcompiles
        · cases hcompiles
    · exact ih (hc.after [e]) h

/-- Catalogs in which a type has the same schema have the same instances of it. -/
theorem Reached.conformsTo_congr (hc : c.Reached) (hd : d.Reached) {fqn : String}
    (hfqn : c.has fqn = true) (hfqn' : d.has fqn = true)
    (hschema : c.jsonSchema fqn = d.jsonSchema fqn) (v : Value) :
    c.ConformsTo fqn v ↔ d.ConformsTo fqn v := by
  obtain ⟨-, schema, hcschema, hcv⟩ := hc.accepts_exactly hfqn v
  obtain ⟨-, schema', hdschema, hdv⟩ := hd.accepts_exactly hfqn' v
  obtain rfl : schema = schema' :=
    Except.ok.inj (hcschema.symm.trans (hschema.trans hdschema))
  exact hcv.symm.trans hdv

end Catalog

/-! ### A row of trees -/

namespace Grove

/-- A model of rows of trees, which may come from a nursery. -/
def rows : ModelFile where
  ns := "orchard"
  imports := ["nursery.*", "grove.*"]
  declarations :=
    [{ kind := .concept, name := "Row", properties := [{ name := "first", type := "Tree" }] }]

/-- A model of trees that are known by their labels. -/
def nursery : ModelFile where
  ns := "nursery"
  declarations :=
    [{ kind := .concept, name := "Tree", properties := [{ name := "label", type := "String" }] }]

def orchard : Catalog :=
  (catalog.add rows.toValue).2

def row (first : Value) : Value :=
  .object [("$class", .text "orchard.Row"), ("first", first)]

def rowOf (tree : String) : SchemaType where
  fqn := "orchard.Row"
  ns := "orchard"
  name := "Row"
  kind := .concept
  properties := [{ name := "first", typeName := "Tree", type := tree }]

/-- A row is checked, and then other trees are added. -/
def history (other : ModelFile) : List Validator.Step :=
  [.check (row leaf) (some "orchard.Row"), .add other.toValue none]

/-- The trees of the nursery, in a place that rows do not import. -/
def hedge : ModelFile :=
  { nursery with ns := "hedge" }

theorem find_after :
    (orchard.after (history hedge)).types.find? "orchard.Row" = some (rowOf "grove.Tree") ∧
    (orchard.after (history hedge)).types.find? tree.fqn = some tree ∧
    (orchard.after (history hedge)).types.find? kind.fqn = some kind := by
  decide +kernel

theorem compiledIn_history (other : ModelFile) :
    orchard.compiledIn? "orchard.Row" (history other) = some orchard := by
  have hcompiles : orchard.compiles? (.check (row leaf) (some "orchard.Row")) =
      some "orchard.Row" := by
    decide +kernel
  rw [history, Catalog.compiledIn?, if_pos hcompiles]

theorem conforms_row {c : Catalog} (hrow : c.types.find? "orchard.Row" = some (rowOf "grove.Tree"))
    (htree : c.types.find? tree.fqn = some tree) (hkind : c.types.find? kind.fqn = some kind) :
    c.ConformsTo "orchard.Row" (row leaf) := by
  change c.ConformsTo (rowOf "grove.Tree").fqn
    (.object [("$class", .text "orchard.Row"), ("first", leaf)])
  refine .object hrow rfl rfl (by decide) (by decide) ?_
  intro p hp v hv
  fin_cases hp
  cases hv
  exact .single rfl (.declared rfl rfl (conforms_leaf hkind htree))

theorem jsonSchema_row : orchard.jsonSchema "orchard.Row" =
    (orchard.after (history hedge)).jsonSchema "orchard.Row" := by
  have hsame : (orchard.jsonSchema "orchard.Row").toOption.any (fun v =>
      ((orchard.after (history hedge)).jsonSchema "orchard.Row").toOption.any v.identical) = true := by
    decide +kernel
  obtain ⟨v, hv, hsame⟩ := Outcome.exists_of_any hsame
  obtain ⟨w, hw, hvw⟩ := Outcome.exists_of_any hsame
  rw [hv, hw, Value.eq_of_identical hvw]

/-- A row keeps the trees that it was first checked with: the leaf is still accepted when `Tree`
stands for the trees of the nursery. -/
example : (((Validator.fresh orchard).run (history nursery)).check (row leaf)
    (some "orchard.Row")).1.isOk = true := by
  decide +kernel

end Grove

end Covenant
