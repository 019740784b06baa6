import Covenant.Proofs.Schema.Resolved
import Covenant.Schema.Rules

/-!
The types that a type leads to.

* `Catalog.Leads`: one step, from a type to the types of its properties, and from an
  abstract type to its concrete subtypes.
* `Catalog.textTypes_spec`: exploring from a type finds exactly the types that steps
  lead to. The steps that are allowed are enough: every type is expanded once.
-/

namespace Covenant.Catalog

/-! ### Subtypes -/

theorem get_eq_ok_iff {c : Catalog} {x : String} {d : SchemaType} :
    c.get x = .ok d ↔ c.types.find? x = some d := by
  unfold get
  cases c.types.find? x <;> simp [Outcome.fail]

/-- Whether a type of the catalog has another among its supertypes. -/
def isBelow (c : Catalog) (base : String) (d : SchemaType) : Bool :=
  match c.isSubtype d.fqn base with
  | .ok b => b
  | .error _ => false

def subtypes (c : Catalog) (base : String) : List SchemaType :=
  c.types.values.filter fun d => !(decide (d.fqn = base) || d.abstract) && c.isBelow base d

/-- **Looking for concrete subtypes succeeds** in resolved types. -/
theorem concreteSubtypes_eq {c : Catalog} (hc : Resolved c.types) {base : String}
    (hbase : base ∈ c.types.names) : c.concreteSubtypes base = .ok (c.subtypes base) := by
  obtain ⟨b, hb⟩ := Table.exists_find hbase
  have hget : c.get base = .ok b := get_eq_ok_iff.mpr hb
  have hfilter : ∀ d ∈ c.types.values,
      (if d.fqn = base ∨ d.abstract then pure false else c.isSubtype d.fqn base)
        = (.ok (!(decide (d.fqn = base) || d.abstract) && c.isBelow base d) : Outcome Bool) := by
    intro d hd
    obtain ⟨e, he, rfl⟩ := List.mem_map.mp hd
    obtain ⟨chain, hchain⟩ := hc.chains e he
    have hsubtype : c.isSubtype e.2.fqn base = .ok (chain.contains base) := by
      rw [isSubtype, Catalog.chain, hc.fqn e he, hchain]
      rfl
    by_cases h : e.2.fqn = base ∨ e.2.abstract = true
    · have hskip : (decide (e.2.fqn = base) || e.2.abstract) = true := by
        rcases h with h | h <;> simp [h]
      rw [if_pos h, hskip]
      rfl
    · have hskip : (decide (e.2.fqn = base) || e.2.abstract) = false := by
        rw [not_or] at h
        simp [h.1, h.2]
      rw [if_neg h, hskip, isBelow, hsubtype]
      rfl
  unfold concreteSubtypes subtypes
  rw [hget]
  exact Outcome.filterM_eq_ok_filter hfilter

theorem mem_subtypes {c : Catalog} {base : String} {d : SchemaType} (h : d ∈ c.subtypes base) :
    (∃ e ∈ c.types, e.2 = d) ∧ d.abstract = false := by
  obtain ⟨hmem, hchoice⟩ := List.mem_filter.mp h
  obtain ⟨e, he, rfl⟩ := List.mem_map.mp hmem
  simp only [Bool.and_eq_true, Bool.not_eq_true', Bool.or_eq_false_iff] at hchoice
  exact ⟨⟨e, he, rfl⟩, hchoice.1.2⟩

/-! ### Steps -/

def successors (c : Catalog) (d : SchemaType) : List String :=
  (if d.abstract then (c.subtypes d.fqn).map (·.fqn) else []) ++ d.targets

def Leads (c : Catalog) (x y : String) : Prop :=
  ∃ d, c.types.find? x = some d ∧ y ∈ c.successors d

theorem mem_names_of_target {c : Catalog} (hc : Resolved c.types) {d : SchemaType}
    (hd : ∃ e ∈ c.types, e.2 = d) {y : String} (h : y ∈ d.targets) : y ∈ c.types.names := by
  obtain ⟨e, he, rfl⟩ := hd
  obtain ⟨p, hp, htarget⟩ := List.mem_filterMap.mp h
  unfold Property.target? at htarget
  split at htarget
  · cases htarget
  · rename_i hplain
    cases htarget
    simp only [Bool.or_eq_true, not_or, Bool.not_eq_true] at hplain
    exact hc.targets e he p hp hplain.1

theorem mem_names_of_successor {c : Catalog} (hc : Resolved c.types) {d : SchemaType}
    (hd : ∃ e ∈ c.types, e.2 = d) {y : String} (h : y ∈ c.successors d) : y ∈ c.types.names := by
  rcases List.mem_append.mp h with h | h
  · split at h
    · obtain ⟨s, hs, rfl⟩ := List.mem_map.mp h
      obtain ⟨⟨e, he, rfl⟩, _⟩ := mem_subtypes hs
      exact List.mem_map.mpr ⟨e, he, (hc.fqn e he).symm⟩
    · cases h
  · exact mem_names_of_target hc hd h

theorem length_successors (c : Catalog) (d : SchemaType) :
    (c.successors d).length ≤ d.properties.length + c.types.length := by
  have htargets : d.targets.length ≤ d.properties.length := List.length_filterMap_le _ _
  have hsubtypes : (c.subtypes d.fqn).length ≤ c.types.length := by
    refine (List.length_filter_le _ _).trans ?_
    simp [Table.values]
  unfold successors
  split
  · simp only [List.length_append, List.length_map]
    omega
  · simp only [List.length_append, List.length_nil]
    omega

theorem mem_of_find_fqn {c : Catalog} (hc : Resolved c.types) {x : String} {d : SchemaType}
    (h : c.types.find? x = some d) : (∃ e ∈ c.types, e.2 = d) ∧ d.fqn = x := by
  have hmem := Table.mem_of_find h
  exact ⟨⟨_, hmem, rfl⟩, hc.fqn _ hmem⟩

theorem find_of_mem {c : Catalog} (hc : Resolved c.types) {d : SchemaType}
    (h : ∃ e ∈ c.types, e.2 = d) : c.types.find? d.fqn = some d := by
  obtain ⟨e, he, rfl⟩ := h
  rw [hc.fqn e he]
  exact (Table.find_eq_some_iff hc.names).mpr he

/-! ### Exploring -/

/-- The steps that a type may still take: none once it is seen. -/
def stepsLeft (c : Catalog) (seen : List SchemaType) (e : String × SchemaType) : Nat :=
  if e.1 ∈ seen.map (·.fqn) then 0 else e.2.properties.length + c.types.length + 1

def remaining (c : Catalog) (seen : List SchemaType) : Nat :=
  (c.types.map (c.stepsLeft seen)).sum

theorem remaining_nil (c : Catalog) : c.remaining [] + 1 = c.exploreSteps := by
  have hsum : ∀ (t : Table SchemaType),
      (t.map (c.stepsLeft [])).sum + 1
        = t.foldr (fun e n => e.2.properties.length + c.types.length + 1 + n) 1 := by
    intro t
    induction t with
    | nil => rfl
    | cons e t ih =>
      have hcost : c.stepsLeft [] e = e.2.properties.length + c.types.length + 1 := by
        simp [stepsLeft]
      rw [List.map_cons, List.sum_cons, List.foldr_cons, ← ih, hcost]
      omega
  exact hsum c.types

theorem sum_map_add_le {α : Type} {f g : α → Nat} {as : List α} (h : ∀ a ∈ as, f a ≤ g a)
    {a : α} (ha : a ∈ as) {k : Nat} (hk : f a + k ≤ g a) :
    (as.map f).sum + k ≤ (as.map g).sum := by
  induction as with
  | nil => cases ha
  | cons b as ih =>
    have hrest : ∀ d ∈ as, f d ≤ g d := fun d hd => h d (by simp [hd])
    rw [List.map_cons, List.map_cons, List.sum_cons, List.sum_cons]
    rcases List.mem_cons.mp ha with rfl | ha
    · have hsum : (as.map f).sum ≤ (as.map g).sum := List.sum_le_sum hrest
      omega
    · have hb : f b ≤ g b := h b (by simp)
      have hsum := ih hrest ha
      omega

/-- Seeing a new type takes its steps off. -/
theorem remaining_append {c : Catalog} {seen : List SchemaType} {x : String} {d : SchemaType}
    (hmem : (x, d) ∈ c.types) (hfqn : d.fqn = x) (hnew : x ∉ seen.map (·.fqn)) :
    c.remaining (seen ++ [d]) + (d.properties.length + c.types.length + 1) ≤ c.remaining seen := by
  refine sum_map_add_le (fun e _ => ?_) hmem ?_
  · unfold stepsLeft
    by_cases he : e.1 ∈ seen.map (·.fqn)
    · simp only [List.map_append, List.mem_append, he, true_or, if_true, le_refl]
    · rw [if_neg he]
      split <;> omega
  · have hseen : x ∈ (seen ++ [d]).map (·.fqn) := by simp [hfqn]
    simp only [stepsLeft, hseen, hnew, if_true, if_false]
    omega

/-- What exploring promises: the types found are types of the catalog, hold those seen
before and those that are pending, with every type also the ones that come next, and
nothing that the pending ones do not lead to. -/
structure Explored (c : Catalog) (succ : SchemaType → List String) (seen : List SchemaType)
    (pending : List String) (found : List SchemaType) : Prop where
  typed : ∀ d ∈ found, ∃ e ∈ c.types, e.2 = d
  kept : ∀ d ∈ seen, d ∈ found
  expanded : ∀ x ∈ pending, x ∈ found.map (·.fqn)
  closed : ∀ d ∈ found, ∀ y ∈ succ d, y ∈ found.map (·.fqn)
  reached : ∀ d ∈ found, d ∈ seen ∨ ∃ x ∈ pending, Relation.ReflTransGen
    (fun x y => ∃ d, c.types.find? x = some d ∧ y ∈ succ d) x d.fqn

/-- **What holds while exploring**: types of the catalog have been seen, names of the catalog
are pending, and what a type leads to that was seen has been seen as well or is pending. -/
structure Exploring (c : Catalog) (succ : SchemaType → List String) (seen : List SchemaType)
    (pending : List String) : Prop where
  typed : ∀ d ∈ seen, ∃ e ∈ c.types, e.2 = d
  named : ∀ x ∈ pending, x ∈ c.types.names
  closed : ∀ d ∈ seen, ∀ y ∈ succ d, y ∈ seen.map (·.fqn) ∨ y ∈ pending

section Explore

variable {c : Catalog} {next : SchemaType → Outcome (List String)}
  {succ : SchemaType → List String} {seen : List SchemaType} {pending : List String} {x : String}

/-- A name that is pending may be left out once its type has been seen. -/
theorem Exploring.skip (h : Exploring c succ seen (x :: pending)) (hx : x ∈ seen.map (·.fqn)) :
    Exploring c succ seen pending := by
  refine ⟨h.typed, fun y hy => h.named y (List.mem_cons_of_mem _ hy), fun d hd y hy => ?_⟩
  rcases h.closed d hd y hy with hseen | hpending
  · exact .inl hseen
  · rcases List.mem_cons.mp hpending with rfl | hpending
    · exact .inl hx
    · exact .inr hpending

/-- The type of a name that is pending joins those seen, and what it leads to is pending. -/
theorem Exploring.expand (h : Exploring c succ seen (x :: pending)) {d : SchemaType}
    (hd : ∃ e ∈ c.types, e.2 = d) (hfqn : d.fqn = x) (hnames : ∀ y ∈ succ d, y ∈ c.types.names) :
    Exploring c succ (seen ++ [d]) (pending ++ succ d) := by
  refine ⟨fun b hb => ?_, fun y hy => ?_, fun b hb y hy => ?_⟩
  · rcases List.mem_append.mp hb with hb | hb
    · exact h.typed b hb
    · exact List.mem_singleton.mp hb ▸ hd
  · rcases List.mem_append.mp hy with hy | hy
    · exact h.named y (List.mem_cons_of_mem _ hy)
    · exact hnames y hy
  · rcases List.mem_append.mp hb with hb | hb
    · rcases h.closed b hb y hy with hseen | hpending
      · exact .inl (by simp only [List.map_append, List.mem_append, hseen, true_or])
      · rcases List.mem_cons.mp hpending with rfl | hpending
        · exact .inl (by simp [hfqn])
        · exact .inr (List.mem_append_left _ hpending)
    · rw [List.mem_singleton.mp hb] at hy
      exact .inr (List.mem_append_right _ hy)

/-- Where nothing is pending, exploring has ended. -/
theorem Exploring.explored (h : Exploring c succ seen []) : Explored c succ seen [] seen := by
  refine ⟨h.typed, fun d hd => hd, by simp, ?_, fun d hd => .inl hd⟩
  intro d hd y hy
  exact (h.closed d hd y hy).resolve_right (by simp)

/-- A type that was seen before may be pending as well. -/
theorem Explored.skip {found : List SchemaType} (h : Explored c succ seen pending found)
    (hx : x ∈ seen.map (·.fqn)) : Explored c succ seen (x :: pending) found := by
  refine ⟨h.typed, h.kept, fun y hy => ?_, h.closed, fun d hd => ?_⟩
  · rcases List.mem_cons.mp hy with rfl | hy
    · obtain ⟨d, hd, rfl⟩ := List.mem_map.mp hx
      exact List.mem_map.mpr ⟨d, h.kept d hd, rfl⟩
    · exact h.expanded y hy
  · rcases h.reached d hd with hseen | ⟨y, hy, hpath⟩
    · exact .inl hseen
    · exact .inr ⟨y, List.mem_cons_of_mem _ hy, hpath⟩

/-- What the type of a pending name leads to is reached from the name. -/
theorem Explored.expand {found : List SchemaType} {d : SchemaType}
    (h : Explored c succ (seen ++ [d]) (pending ++ succ d) found)
    (hfind : c.types.find? x = some d) (hfqn : d.fqn = x) :
    Explored c succ seen (x :: pending) found := by
  refine ⟨h.typed, fun b hb => h.kept b (List.mem_append_left _ hb), fun y hy => ?_, h.closed,
    fun b hb => ?_⟩
  · rcases List.mem_cons.mp hy with rfl | hy
    · exact List.mem_map.mpr ⟨d, h.kept d (by simp), hfqn⟩
    · exact h.expanded y (List.mem_append_left _ hy)
  · rcases h.reached b hb with hseen | ⟨y, hy, hpath⟩
    · rcases List.mem_append.mp hseen with hseen | hnew
      · exact .inl hseen
      · refine .inr ⟨x, List.mem_cons_self, ?_⟩
        rw [List.mem_singleton.mp hnew, hfqn]
    · rcases List.mem_append.mp hy with hy | hy
      · exact .inr ⟨y, List.mem_cons_of_mem _ hy, hpath⟩
      · exact .inr ⟨x, List.mem_cons_self, .head ⟨d, hfind, hy⟩ hpath⟩

/-- **Exploring ends with a closed set of types.** The induction is on the steps that are
allowed; each takes a pending name away, and a new type pays for the names it adds. -/
theorem explore_spec (hc : Resolved c.types)
    (hnext : ∀ d, (∃ e ∈ c.types, e.2 = d) → next d = .ok (succ d))
    (hnames : ∀ d, (∃ e ∈ c.types, e.2 = d) → ∀ y ∈ succ d, y ∈ c.types.names)
    (hlength : ∀ d, (succ d).length ≤ d.properties.length + c.types.length)
    (fuel : Nat) (h : Exploring c succ seen pending)
    (hfuel : pending.length + c.remaining seen ≤ fuel) :
    ∃ found, c.explore next fuel seen pending = .ok found ∧
      Explored c succ seen pending found := by
  induction fuel generalizing seen pending with
  | zero =>
    have hnil : pending = [] := List.length_eq_zero_iff.mp (by omega)
    subst hnil
    exact ⟨seen, rfl, h.explored⟩
  | succ fuel ih =>
    cases pending with
    | nil => exact ⟨seen, rfl, h.explored⟩
    | cons x pending =>
      rw [List.length_cons] at hfuel
      by_cases hx : x ∈ seen.map (·.fqn)
      · -- a type that was seen before takes one step
        have hany : (seen.any fun d => d.fqn == x) = true := by
          simpa [List.any_eq_true] using hx
        obtain ⟨found, hfound, hexplored⟩ := ih (h.skip hx) (by omega)
        refine ⟨found, ?_, hexplored.skip hx⟩
        rw [explore, if_pos hany, hfound]
      · -- a new type is expanded
        have hany : (seen.any fun d => d.fqn == x) = false := by
          simpa [List.any_eq_true] using hx
        obtain ⟨d, hfind⟩ := Table.exists_find (h.named x List.mem_cons_self)
        obtain ⟨hd, hfqn⟩ := mem_of_find_fqn hc hfind
        have hsteps := remaining_append (Table.mem_of_find hfind) hfqn hx
        have hadded := hlength d
        have hfuel' : (pending ++ succ d).length + c.remaining (seen ++ [d]) ≤ fuel := by
          rw [List.length_append]
          omega
        obtain ⟨found, hfound, hexplored⟩ := ih (h.expand hd hfqn (hnames d hd)) hfuel'
        refine ⟨found, ?_, hexplored.expand hfind hfqn⟩
        rw [explore, hany]
        simp [get, hfind, hnext d hd, bind, Except.bind, hfound]

/-- **Exploring from a type of the catalog** ends, with the steps that it is given. -/
theorem exists_explored (hc : Resolved c.types)
    (hnext : ∀ d, (∃ e ∈ c.types, e.2 = d) → next d = .ok (succ d))
    (hnames : ∀ d, (∃ e ∈ c.types, e.2 = d) → ∀ y ∈ succ d, y ∈ c.types.names)
    (hlength : ∀ d, (succ d).length ≤ d.properties.length + c.types.length) {root : String}
    (hroot : root ∈ c.types.names) :
    ∃ found, c.explore next c.exploreSteps [] [root] = .ok found ∧
      Explored c succ [] [root] found := by
  refine explore_spec hc hnext hnames hlength _ ⟨by simp, by simpa using hroot, by simp⟩ ?_
  rw [← remaining_nil, List.length_singleton]
  omega

end Explore

/-- **The types of the catalog that exploring from a name finds** are those that steps from the
name lead to. -/
theorem Explored.mem_iff {c : Catalog} (hc : Resolved c.types) {succ : SchemaType → List String}
    {root : String} {found : List SchemaType} (h : Explored c succ [] [root] found)
    (d : SchemaType) : d ∈ found ↔ c.types.find? d.fqn = some d ∧ Relation.ReflTransGen
      (fun x y => ∃ d, c.types.find? x = some d ∧ y ∈ succ d) root d.fqn := by
  constructor
  · intro hd
    refine ⟨find_of_mem hc (h.typed d hd), ?_⟩
    rcases h.reached d hd with hnone | ⟨x, hx, hreach⟩
    · cases hnone
    · rwa [List.mem_singleton.mp hx] at hreach
  · rintro ⟨hfind, hreach⟩
    have hall : ∀ y, Relation.ReflTransGen
        (fun x y => ∃ d, c.types.find? x = some d ∧ y ∈ succ d) root y → y ∈ found.map (·.fqn) := by
      intro y hy
      induction hy with
      | refl => exact h.expanded root (by simp)
      | tail _ hstep ih =>
        obtain ⟨b, hb, hfqn⟩ := List.mem_map.mp ih
        obtain ⟨b', hfind', hnext'⟩ := hstep
        have heq : b' = b := by
          have hfind := find_of_mem hc (h.typed b hb)
          rw [hfqn, hfind'] at hfind
          exact Option.some.inj hfind
        exact h.closed b hb _ (heq ▸ hnext')
    obtain ⟨b, hb, hfqn⟩ := List.mem_map.mp (hall d.fqn hreach)
    have hfind' := find_of_mem hc (h.typed b hb)
    rw [hfqn, hfind] at hfind'
    exact (Option.some.inj hfind') ▸ hb

/-- Exploring finds each type once. -/
theorem nodup_explore {c : Catalog} (hc : Resolved c.types)
    {next : SchemaType → Outcome (List String)} {fuel : Nat} {seen found : List SchemaType}
    {pending : List String} (hseen : (seen.map (·.fqn)).Nodup)
    (h : c.explore next fuel seen pending = .ok found) : (found.map (·.fqn)).Nodup := by
  induction fuel generalizing seen pending with
  | zero =>
    cases h
    exact hseen
  | succ fuel ih =>
    cases pending with
    | nil =>
      cases h
      exact hseen
    | cons x pending =>
      rw [explore] at h
      split at h
      · exact ih hseen h
      · rename_i hnew
        obtain ⟨d, hd, h⟩ := Outcome.bind_eq_ok.mp h
        obtain ⟨ys, _, h⟩ := Outcome.bind_eq_ok.mp h
        obtain ⟨_, hfqn⟩ := mem_of_find_fqn hc (get_eq_ok_iff.mp hd)
        refine ih ?_ h
        rw [List.map_append, List.map_singleton, ← List.concat_eq_append, List.nodup_concat, hfqn]
        exact ⟨by simpa [List.any_eq_true] using hnew, hseen⟩

/-- What exploring asks for when it looks for the types of texts are the types that a type leads
to. -/
theorem textNext_eq {c : Catalog} (hc : Resolved c.types) {d : SchemaType}
    (hd : ∃ e ∈ c.types, e.2 = d) :
    (do
      let subtypes ← if d.abstract then c.concreteSubtypes d.fqn else pure []
      return subtypes.map (·.fqn) ++ d.targets : Outcome (List String))
      = .ok (c.successors d) := by
  obtain ⟨e, he, rfl⟩ := hd
  have hname : e.2.fqn ∈ c.types.names :=
    List.mem_map.mpr ⟨e, he, (hc.fqn e he).symm⟩
  unfold successors
  cases e.2.abstract with
  | false => rfl
  | true =>
    rw [if_pos rfl, if_pos rfl, concreteSubtypes_eq hc hname]
    rfl

/-- **The types that texts of a type may hold** are found, and they are exactly those
that steps from the type lead to. -/
theorem textTypes_spec {c : Catalog} (hc : Resolved c.types) {root : String}
    (hroot : root ∈ c.types.names) : ∃ types, c.textTypes root = .ok types ∧
      ∀ d, d ∈ types ↔ c.types.find? d.fqn = some d ∧ Relation.ReflTransGen c.Leads root d.fqn := by
  obtain ⟨found, hfound, hexplored⟩ := exists_explored hc (fun d hd => textNext_eq hc hd)
    (fun d hd y hy => mem_names_of_successor hc hd hy) c.length_successors hroot
  exact ⟨found, hfound, hexplored.mem_iff hc⟩

end Covenant.Catalog

/-! ### The types of orders -/

namespace Covenant.Shop

theorem leads_part {x : String} : ¬ catalog.Leads part.fqn x := by
  rintro ⟨d, hd, hx⟩
  cases find_types.1.symm.trans hd
  exact absurd hx List.not_mem_nil

theorem leads_item {x : String} (h : catalog.Leads item.fqn x) : x = part.fqn := by
  obtain ⟨d, hd, hx⟩ := h
  cases find_types.2.1.symm.trans hd
  exact List.mem_singleton.mp hx

theorem leads_order {x : String} (h : catalog.Leads order.fqn x) : x = item.fqn := by
  obtain ⟨d, hd, hx⟩ := h
  cases find_types.2.2.symm.trans hd
  exact List.mem_singleton.mp hx

theorem reached_item {x : String} (h : Relation.TransGen catalog.Leads item.fqn x) :
    x = part.fqn := by
  induction h with
  | single h => exact leads_item h
  | tail _ h ih => exact absurd (ih ▸ h) leads_part

theorem reached_order {x : String} (h : Relation.TransGen catalog.Leads order.fqn x) :
    x = item.fqn ∨ x = part.fqn := by
  induction h with
  | single h => exact .inl (leads_order h)
  | tail _ h ih =>
    rcases ih with rfl | rfl
    · exact .inr (leads_item h)
    · exact absurd h leads_part

end Covenant.Shop
