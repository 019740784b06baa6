import Mathlib
import Covenant.Grammar.RuleSet

/-!
Rule sets as they are built.

* `RuleSet.WellFormed`: names are taken once, and no rule or alternative is empty.
* `RuleSet.add_eq_ok_iff`: exactly the rules that keep a set well formed can be added.
* `RuleSet.find_eq_some_iff`: a set whose rules have names of their own finds each of them.
* `RuleSet.fault_of_closed`: what a set of closed rules may lack.
-/

namespace Covenant

/-- A rule that has an alternative, and in each alternative a symbol. -/
def Rule.Filled (r : Rule) : Prop :=
  r.alternatives ≠ [] ∧ ∀ a ∈ r.alternatives, a ≠ []

namespace RuleSet

/-- The rules of a set have names of their own, alternatives, and symbols in each. -/
structure WellFormed (s : RuleSet) : Prop where
  names : s.names.Nodup
  filled : ∀ r ∈ s.rules, r.Filled

theorem wellFormed_empty : WellFormed {} :=
  ⟨by simp [RuleSet.names], by simp⟩

theorem has_iff {s : RuleSet} {name : String} : s.has name = true ↔ name ∈ s.names := by
  simp [has, names, List.any_eq_true, beq_iff_eq]

theorem obstacle_eq_none_iff {s : RuleSet} {r : Rule} :
    s.obstacle? r = none ↔ r.name ∉ s.names ∧ r.Filled := by
  unfold obstacle? Rule.Filled
  have hhas := @has_iff s r.name
  by_cases h : s.has r.name = true
  · simp [h, hhas.mp h]
  · have hname : r.name ∉ s.names := fun hm => h (hhas.mpr hm)
    by_cases hempty : r.alternatives = []
    · simp [h, hempty]
    · have hnil : (∀ a ∈ r.alternatives, a ≠ []) ↔ [] ∉ r.alternatives :=
        ⟨fun hall hmem => hall [] hmem rfl, fun hmem a ha heq => hmem (heq ▸ ha)⟩
      simp [h, hname, hempty, hnil]

/-- **A rule can be added** when its name is free and it is filled. -/
theorem add_eq_ok_iff {s t : RuleSet} {r : Rule} :
    s.add r = .ok t ↔
      r.name ∉ s.names ∧ r.Filled ∧ t = { s with rules := s.rules ++ [r] } := by
  unfold add
  cases h : s.obstacle? r with
  | none =>
    obtain ⟨hname, hfilled⟩ := obstacle_eq_none_iff.mp h
    simp [hname, hfilled, eq_comm]
  | some c =>
    have hno : ¬ (r.name ∉ s.names ∧ r.Filled) := by
      rw [← obstacle_eq_none_iff, h]
      simp
    simp only [Outcome.fail, reduceCtorEq, false_iff]
    exact fun h => hno ⟨h.1, h.2.1⟩

/-- Adding at the end keeps a set well formed. -/
theorem WellFormed.append {s : RuleSet} (hs : s.WellFormed) {r : Rule} (hname : r.name ∉ s.names)
    (hr : r.Filled) : WellFormed { s with rules := s.rules ++ [r] } := by
  constructor
  · have hnames := hs.names
    simp only [RuleSet.names, List.map_append, List.map_singleton] at *
    exact List.nodup_append.mpr ⟨hnames, by simp, by
      intro a ha b hb hab
      simp only [List.mem_singleton] at hb
      exact hname (hb ▸ hab ▸ ha)⟩
  · intro q hq
    rcases List.mem_append.mp hq with hq | hq
    · exact hs.filled q hq
    · simp only [List.mem_singleton] at hq
      exact hq ▸ hr

/-- **Every set that is built rule by rule is well formed.** -/
theorem WellFormed.add {s t : RuleSet} {r : Rule} (hs : s.WellFormed) (h : s.add r = .ok t) :
    t.WellFormed := by
  obtain ⟨hname, hfilled, rfl⟩ := add_eq_ok_iff.mp h
  exact hs.append hname hfilled

theorem mem_names {s : RuleSet} {r : Rule} (h : r ∈ s.rules) : r.name ∈ s.names :=
  List.mem_map.mpr ⟨r, h, rfl⟩

/-- **A set whose rules have names of their own finds each of them** by its name. -/
theorem find_eq_some_iff {s : RuleSet} (hnames : s.names.Nodup) {name : String} {r : Rule} :
    s.find? name = some r ↔ r ∈ s.rules ∧ r.name = name := by
  constructor
  · intro h
    exact ⟨List.mem_of_find?_eq_some h, by simpa using List.find?_some h⟩
  · rintro ⟨hr, rfl⟩
    have hsome : (s.find? r.name).isSome := by
      rw [find?, List.find?_isSome]
      exact ⟨r, hr, by simp⟩
    obtain ⟨q, hq⟩ := Option.isSome_iff_exists.mp hsome
    have hqr : q = r := by
      have hmem := List.mem_of_find?_eq_some hq
      have hname : q.name = r.name := by simpa using List.find?_some hq
      exact List.inj_on_of_nodup_map hnames hmem hr hname
    rw [hq, hqr]

theorem WellFormed.find_eq_some_iff {s : RuleSet} (hs : s.WellFormed) {name : String} {r : Rule} :
    s.find? name = some r ↔ r ∈ s.rules ∧ r.name = name :=
  RuleSet.find_eq_some_iff hs.names

theorem find_eq_none_iff {s : RuleSet} {name : String} : s.find? name = none ↔ name ∉ s.names := by
  simp [find?, names]

end RuleSet

/-! ### Closed rules -/

/-- A filled rule that refers to known rules only, and whose action asks for nothing that
its alternatives do not have. -/
structure Rule.Closed (r : Rule) (known : String → Prop) : Prop where
  filled : r.Filled
  references : ∀ x ∈ r.references, known x
  sources : ∀ a, r.action = some a → ∀ p ∈ a.params, RuleSet.sourceFault? r p.source = none

theorem Rule.Closed.mono {r : Rule} {known known' : String → Prop} (h : r.Closed known)
    (hknown : ∀ x, known x → known' x) : r.Closed known' :=
  ⟨h.filled, fun x hx => hknown x (h.references x hx), h.sources⟩

theorem Rule.mem_references {r : Rule} {x : String} :
    x ∈ r.references ↔ ∃ a ∈ r.alternatives, ∃ s ∈ a, s.kind = .rule ∧ s.value = x := by
  simp only [Rule.references, List.mem_filterMap, List.mem_flatten]
  constructor
  · rintro ⟨s, ⟨a, ha, hs⟩, hx⟩
    by_cases hk : s.kind = .rule
    · exact ⟨a, ha, s, hs, hk, by simpa [hk] using hx⟩
    · simp [hk] at hx
  · rintro ⟨a, ha, s, hs, hk, rfl⟩
    exact ⟨s, ⟨a, ha, hs⟩, by simp [hk]⟩

namespace RuleSet

/-- **The first fault of a set** whose rules are closed, but for references to names that
`missing` holds of, is such a reference. -/
theorem fault_of_closed {s : RuleSet} {start : String} (hstart : s.start = some start)
    (hmem : start ∈ s.names) {missing : String → Prop}
    (hrules : ∀ r ∈ s.rules, r.Closed fun x => x ∈ s.names ∨ missing x) :
    s.fault? = none ∨ ∃ r x, s.fault? = some (.danglingReference r x) ∧ missing x := by
  have hrule : ∀ r ∈ s.rules, s.ruleFault? r = none ∨
      ∃ x, s.ruleFault? r = some (.danglingReference r.name x) ∧ missing x := by
    intro r hr
    have hclosed := hrules r hr
    unfold ruleFault?
    cases hfind : r.references.find? fun name => !s.has name with
    | some x =>
      have hnot : s.has x = false := by simpa using List.find?_some hfind
      have hknown := hclosed.references x (List.mem_of_find?_eq_some hfind)
      refine .inr ⟨x, rfl, hknown.resolve_left fun hx => ?_⟩
      exact absurd (has_iff.mpr hx) (by simp [hnot])
    | none =>
      refine .inl ?_
      cases ha : r.action with
      | none => rfl
      | some a => exact List.findSome?_eq_none_iff.mpr (hclosed.sources a ha)
  unfold fault?
  rw [hstart]
  simp only [has_iff.mpr hmem, if_true]
  cases hfault : s.rules.findSome? s.ruleFault? with
  | none => exact .inl rfl
  | some fault =>
    obtain ⟨r, hr, hsome⟩ := List.exists_of_findSome?_eq_some hfault
    rcases hrule r hr with hnone | ⟨x, hx, hmissing⟩
    · cases hnone.symm.trans hsome
    · exact .inr ⟨r.name, x, hsome.symm.trans hx, hmissing⟩

/-- A rule set that is complete passes its check. -/
theorem check_eq_ok_iff {s : RuleSet} : s.check = .ok () ↔ s.fault? = none := by
  unfold check
  cases s.fault? with
  | none => simp
  | some f => simp [Outcome.fail]

theorem check_eq_fail {s : RuleSet} {fault : Fault.Grammar} (h : s.fault? = some fault) :
    s.check = .fail (.grammar fault) := by
  rw [check, h]

/-- Each alternative of a checked rule has a symbol for a reference. -/
theorem refersTo_of_sourceFault {r : Rule} {target : String}
    (h : sourceFault? r (.ref target) = none) {alternative : List Symbol}
    (halternative : alternative ∈ r.alternatives) :
    alternative.any (·.refersTo target) = true := by
  have hall : r.alternatives.all (fun a => a.any (·.refersTo target)) = true := by
    by_contra hnot
    simp [sourceFault?, hnot] at h
  exact List.all_eq_true.mp hall alternative halternative

/-- A position lies in each alternative of a checked rule. -/
theorem lt_of_sourceFault {r : Rule} {position : Int}
    (h : sourceFault? r (.index position) = none) {alternative : List Symbol}
    (halternative : alternative ∈ r.alternatives) :
    0 ≤ position ∧ position < alternative.length := by
  have hall : r.alternatives.all (fun a => 0 ≤ position && position < a.length) = true := by
    by_contra hnot
    simp [sourceFault?, hnot] at h
  simpa using List.all_eq_true.mp hall alternative halternative

/-- No rule of a complete set has a fault. -/
theorem ruleFault_of_fault {s : RuleSet} (h : s.fault? = none) {r : Rule} (hr : r ∈ s.rules) :
    s.ruleFault? r = none := by
  unfold fault? at h
  split at h
  · cases h
  · split at h
    · exact List.findSome?_eq_none_iff.mp h r hr
    · cases h

/-- **A rule without a fault** refers to rules that are there, and its action asks for nothing that
is not there. -/
theorem ruleFault_eq_none_iff {s : RuleSet} {r : Rule} : s.ruleFault? r = none ↔
    (∀ x ∈ r.references, s.has x = true) ∧
      ∀ a, r.action = some a → ∀ p ∈ a.params, sourceFault? r p.source = none := by
  unfold ruleFault?
  cases hfind : r.references.find? fun name => !s.has name with
  | some x =>
    have hnot : s.has x = false := by simpa using List.find?_some hfind
    simp only [reduceCtorEq, false_iff]
    exact fun h => absurd (h.1 x (List.mem_of_find?_eq_some hfind)) (by simp [hnot])
  | none =>
    have hall : ∀ x ∈ r.references, s.has x = true := by simpa using hfind
    cases ha : r.action with
    | none => simpa using hall
    | some a => simpa using fun _ => hall

/-- What a rule of a complete set refers to is there. -/
theorem exists_of_references {s : RuleSet} (hcheck : s.check = .ok ()) {r : Rule} (hr : r ∈ s.rules)
    {x : String} (hx : x ∈ r.references) : ∃ q, s.find? x = some q := by
  have hrule := ruleFault_of_fault (check_eq_ok_iff.mp hcheck) hr
  have hhas := (ruleFault_eq_none_iff.mp hrule).1 x hx
  cases hfind : s.find? x with
  | some q => exact ⟨q, rfl⟩
  | none => exact absurd (has_iff.mp hhas) (find_eq_none_iff.mp hfind)

/-- Filled rules with names of their own can all be added. -/
theorem foldlM_add {s : RuleSet} {rs : List Rule} (hnames : (s.names ++ rs.map Rule.name).Nodup)
    (hrs : ∀ r ∈ rs, r.Filled) : rs.foldlM RuleSet.add s = .ok { s with rules := s.rules ++ rs } := by
  induction rs generalizing s with
  | nil => simp [pure, Except.pure]
  | cons r rs ih =>
    rw [List.map_cons] at hnames
    have hfresh : r.name ∉ s.names := fun hmem =>
      (List.nodup_append.mp hnames).2.2 _ hmem _ (by simp) rfl
    have hstep := add_eq_ok_iff.mpr ⟨hfresh, hrs r (by simp), rfl⟩
    have hnames' : (names { s with rules := s.rules ++ [r] } ++ rs.map Rule.name).Nodup := by
      simpa [names] using hnames
    rw [List.foldlM_cons, hstep]
    simp only [bind, Except.bind]
    rw [ih hnames' fun q hq => hrs q (by simp [hq])]
    simp

/-- **Filled rules can be added, those with a taken name left out.** -/
theorem addAll_skip {s : RuleSet} (hs : s.WellFormed) {rs : List Rule} (hrs : ∀ r ∈ rs, r.Filled) :
    ∃ new, s.addAll true rs = ({ s with rules := s.rules ++ new }, none) ∧
      WellFormed { s with rules := s.rules ++ new } ∧ (∀ r ∈ new, r ∈ rs) ∧
      ∀ r ∈ rs, r.name ∈ names { s with rules := s.rules ++ new } := by
  induction rs generalizing s with
  | nil => exact ⟨[], by simp [addAll], by simpa using hs, by simp, by simp⟩
  | cons r rs ih =>
    have hrest : ∀ q ∈ rs, q.Filled := fun q hq => hrs q (by simp [hq])
    by_cases hmem : r.name ∈ s.names
    · obtain ⟨new, hadd, hwell, hsub, hall⟩ := ih hs hrest
      refine ⟨new, ?_, hwell, fun q hq => by simp [hsub q hq], ?_⟩
      · rw [addAll, has_iff.mpr hmem, Bool.and_self, if_pos rfl, hadd]
      · intro q hq
        rcases List.mem_cons.mp hq with rfl | hq
        · obtain ⟨p, hp, hname⟩ := List.mem_map.mp hmem
          exact List.mem_map.mpr ⟨p, by simp [hp], hname⟩
        · exact hall q hq
    · have hhas : s.has r.name = false := by
        rw [Bool.eq_false_iff]
        exact fun h => hmem (has_iff.mp h)
      have hstep := add_eq_ok_iff.mpr ⟨hmem, hrs r (by simp), rfl⟩
      obtain ⟨new, hadd, hwell, hsub, hall⟩ := ih (hs.append hmem (hrs r (by simp))) hrest
      have hrules : s.rules ++ [r] ++ new = s.rules ++ r :: new := by simp
      rw [hrules] at hadd hwell hall
      refine ⟨r :: new, ?_, hwell, ?_, ?_⟩
      · rw [addAll, hhas]
        simp [hstep, hadd]
      · intro q hq
        rcases List.mem_cons.mp hq with rfl | hq
        · simp
        · simp [hsub q hq]
      · intro q hq
        rcases List.mem_cons.mp hq with rfl | hq
        · exact List.mem_map.mpr ⟨q, by simp, rfl⟩
        · exact hall q hq

end RuleSet

end Covenant
