import Covenant.Proofs.Grammar.RuleSet

/-!
Rule sets only grow.

* `RuleSet.rules_addAll`: rules that are added one by one come at the end, in order.
* `RuleSet.extension`: an extension takes in the other rules, or those before the first that it
  cannot take.
* `RuleSet.Family.after`: rule sets after calls on them, of which any may fail.
* `RuleSet.Family.only_grow`: no call replaces or moves a rule, and none puts in a rule that is
  empty or whose name is taken.
-/

namespace Covenant.RuleSet

theorem get_eq_ok_iff {s : RuleSet} {name : String} {r : Rule} :
    s.get name = .ok r ↔ s.find? name = some r := by
  unfold get
  cases s.find? name with
  | none => simp [Outcome.fail]
  | some q => simp

/-! ### Rules added one by one -/

/-- The rules that are inserted when rules are added one by one: each that `add` accepts. -/
def accepted (s : RuleSet) (skip : Bool) : List Rule → List Rule
  | [] => []
  | r :: rs =>
    if skip && s.has r.name then s.accepted skip rs
    else
      match s.add r with
      | .ok s => r :: s.accepted skip rs
      | .error _ => []

/-- **Rules that are added one by one** come at the end, in the order of insertion. -/
theorem rules_addAll (s : RuleSet) (skip : Bool) (rs : List Rule) :
    (s.addAll skip rs).1.rules = s.rules ++ s.accepted skip rs := by
  induction rs generalizing s with
  | nil => simp [addAll, accepted]
  | cons r rs ih =>
    rw [addAll, accepted]
    split
    · exact ih s
    · cases hadd : s.add r with
      | ok t =>
        rw [ih t, rules_add hadd]
        simp
      | error f => simp

theorem accepted_sublist (s : RuleSet) (skip : Bool) (rs : List Rule) :
    (s.accepted skip rs).Sublist rs := by
  induction rs generalizing s with
  | nil => exact List.Sublist.refl _
  | cons r rs ih =>
    rw [accepted]
    split
    · exact (ih s).cons r
    · split
      · exact (ih _).cons_cons r
      · exact List.nil_sublist _

/-- Adding rules one by one keeps a set well formed, wherever it stops. -/
theorem WellFormed.addAll {s : RuleSet} (hs : s.WellFormed) (skip : Bool) (rs : List Rule) :
    (s.addAll skip rs).1.WellFormed := by
  induction rs generalizing s with
  | nil => exact hs
  | cons r rs ih =>
    rw [RuleSet.addAll]
    split
    · exact ih hs
    · split
      · rename_i t hadd
        exact ih (hs.add hadd)
      · exact hs

/-! ### Extensions -/

/-- Whether an extension leaves a rule out. -/
def skips (s : RuleSet) (skip : Bool) (r : Rule) : Bool :=
  skip && s.has r.name

/-- Why an extension cannot take a rule, if so: it is not left out, and cannot be added. -/
def stop? (s : RuleSet) (skip : Bool) (r : Rule) : Option Fault.Grammar :=
  if s.skips skip r then none else s.obstacle? r

/-- The rules that an extension does not leave out. -/
def unskipped (s : RuleSet) (skip : Bool) (rs : List Rule) : List Rule :=
  rs.filter fun r => !s.skips skip r

/-- **What an extension comes to.** It takes in all rules of the other set but those that it
leaves out, and the other's expressions count; or it stops at the first rule that it cannot take,
and has taken in the rules before that one but for those that it leaves out, and nothing else has
changed. -/
inductive Extension (s other : RuleSet) (skip : Bool) : RuleSet × Option Fault → Prop where
  | whole (h : ∀ r ∈ other.rules, s.stop? skip r = none) :
      Extension s other skip
        ({ s with
            rules := s.rules ++ s.unskipped skip other.rules
            expressions := s.expressions || other.expressions }, none)
  | stopped {before after : List Rule} {r : Rule} {c : Fault.Grammar}
      (hrules : other.rules = before ++ r :: after)
      (hbefore : ∀ q ∈ before, s.stop? skip q = none) (hr : s.stop? skip r = some c) :
      Extension s other skip
        ({ s with rules := s.rules ++ s.unskipped skip before }, some { cause := .grammar c })

section

variable {s : RuleSet} {skip : Bool} {r : Rule} {new : List Rule}

theorem has_append (h : ∀ q ∈ new, q.name ≠ r.name) :
    has { s with rules := s.rules ++ new } r.name = s.has r.name := by
  have hnew : (new.any fun q => q.name == r.name) = false := by simpa using h
  rw [has, List.any_append, hnew, Bool.or_false, has]

/-- Rules of other names do not change whether a rule is left out. -/
theorem skips_append (h : ∀ q ∈ new, q.name ≠ r.name) :
    skips { s with rules := s.rules ++ new } skip r = s.skips skip r := by
  rw [skips, has_append h, skips]

/-- Rules of other names do not change whether a rule can be taken. -/
theorem stop_append (h : ∀ q ∈ new, q.name ≠ r.name) :
    stop? { s with rules := s.rules ++ new } skip r = s.stop? skip r := by
  rw [stop?, skips_append h, obstacle?, has_append h, stop?, obstacle?]

theorem unskipped_cons_of_skips (h : s.skips skip r = true) (rs : List Rule) :
    s.unskipped skip (r :: rs) = s.unskipped skip rs := by
  simp [unskipped, h]

theorem unskipped_cons (h : s.skips skip r = false) (rs : List Rule) :
    s.unskipped skip (r :: rs) = r :: s.unskipped skip rs := by
  simp [unskipped, h]

/-- A rule that is neither left out nor stopped at is added. -/
theorem add_of_stop (hskip : s.skips skip r = false) (hstop : s.stop? skip r = none) :
    s.add r = .ok { s with rules := s.rules ++ [r] } := by
  have hobstacle : s.obstacle? r = none := by simpa [stop?, hskip] using hstop
  rw [add, hobstacle]

/-- **Rules that can be taken** are added, but for those that are left out, before the others.
As their names differ, what is left out and what can be taken is settled at the start. -/
theorem addAll_append {before : List Rule} (hnames : (before.map Rule.name).Nodup)
    (hbefore : ∀ q ∈ before, s.stop? skip q = none) (rest : List Rule) :
    s.addAll skip (before ++ rest) =
      addAll { s with rules := s.rules ++ s.unskipped skip before } skip rest := by
  induction before generalizing s with
  | nil => simp [unskipped]
  | cons q before ih =>
    obtain ⟨hq, hnames⟩ := List.nodup_cons.mp hnames
    have hrest : ∀ p ∈ before, s.stop? skip p = none := fun p hp => hbefore p (by simp [hp])
    rw [List.cons_append, addAll]
    cases hskip : s.skips skip q with
    | true =>
      rw [if_pos (by simpa [skips] using hskip), ih hnames hrest, unskipped_cons_of_skips hskip]
    | false =>
      -- `q` is added, and as its name is its own, nothing changes for the rules behind it
      have hne : ∀ p ∈ before, ∀ x ∈ [q], x.name ≠ p.name := by
        intro p hp x hx hname
        rw [List.mem_singleton.mp hx] at hname
        exact hq (hname ▸ List.mem_map_of_mem hp)
      have hsame : unskipped { s with rules := s.rules ++ [q] } skip before =
          s.unskipped skip before :=
        List.filter_congr fun p hp => by rw [skips_append (hne p hp)]
      rw [if_neg (by simpa [skips] using hskip), add_of_stop hskip (hbefore q (by simp))]
      simp only
      rw [ih hnames fun p hp => (stop_append (hne p hp)).trans (hrest p hp), hsame,
        unskipped_cons hskip]
      simp

/-- Adding stops at a rule that cannot be taken. -/
theorem addAll_of_stop {c : Fault.Grammar} (h : s.stop? skip r = some c) (rs : List Rule) :
    s.addAll skip (r :: rs) = (s, some { cause := .grammar c }) := by
  have hskip : s.skips skip r = false := by
    by_contra hskip
    simp [stop?, hskip] at h
  have hobstacle : s.obstacle? r = some c := by simpa [stop?, hskip] using h
  rw [addAll, if_neg (by simpa [skips] using hskip), add, hobstacle]
  rfl

/-- **Extending by a set whose names differ** takes in its rules, or those before the first that
cannot be taken. -/
theorem extension {other : RuleSet} (hother : other.names.Nodup) :
    Extension s other skip (s.extend other skip) := by
  cases hstop : other.rules.findSome? (s.stop? skip) with
  | none =>
    have hall := List.findSome?_eq_none_iff.mp hstop
    have hadd := addAll_append hother hall []
    rw [List.append_nil, addAll] at hadd
    rw [extend, hadd]
    exact .whole hall
  | some c =>
    obtain ⟨before, r, after, hrules, hr, hbefore⟩ := List.findSome?_eq_some_iff.mp hstop
    have hnames : (before.map Rule.name ++ r.name :: after.map Rule.name).Nodup := by
      simpa [names, hrules] using hother
    obtain ⟨hnodup, -, hdiffer⟩ := List.nodup_append.mp hnames
    -- the rules before `r` do not take its name, so `r` cannot be taken after them either
    have hne : ∀ q ∈ s.unskipped skip before, q.name ≠ r.name := fun q hq =>
      hdiffer _ (List.mem_map_of_mem (List.mem_of_mem_filter hq)) _ (by simp)
    rw [extend, hrules, addAll_append hnodup hbefore, addAll_of_stop ((stop_append hne).trans hr)]
    exact .stopped hrules hbefore hr

end

/-! ### Calls -/

/-- Rule sets by a key. A set that is made later is there from the start, without rules. -/
abbrev Family (κ : Type) := κ → RuleSet

/-- A call on the rule set `target` of a family: a rule is added, or the rules of another set, or
its own. -/
inductive Call (κ : Type) where
  | add (target : κ) (r : Rule)
  | extend (target other : κ) (skip : Bool)

section

variable {κ : Type}

def Call.target : Call κ → κ
  | add target _ => target
  | extend target _ _ => target

/-- What a call makes of its target, and the fault that it ends with. An extension by the target
itself adds the rules that it has when the call is made. -/
def Call.outcome (sets : Family κ) : Call κ → RuleSet × Option Fault
  | add target r =>
    match (sets target).add r with
    | .ok s => (s, none)
    | .error f => (sets target, some f)
  | extend target other skip => (sets target).extend (sets other) skip

/-- The rules that a call inserts into its target, in order. -/
def Call.inserted (sets : Family κ) : Call κ → List Rule
  | add target r =>
    match (sets target).add r with
    | .ok _ => [r]
    | .error _ => []
  | extend target other skip => (sets target).accepted skip (sets other).rules

theorem Call.rules_outcome (c : Call κ) (sets : Family κ) :
    (c.outcome sets).1.rules = (sets c.target).rules ++ c.inserted sets := by
  cases c with
  | add target r =>
    simp only [outcome, inserted, Call.target]
    cases hadd : (sets target).add r with
    | ok s => exact rules_add hadd
    | error f => simp
  | extend target other skip =>
    rw [inserted, Call.target, ← rules_addAll, outcome, RuleSet.extend]
    split <;> simp [*]

theorem Call.wellFormed_outcome (c : Call κ) {sets : Family κ} (h : (sets c.target).WellFormed) :
    (c.outcome sets).1.WellFormed := by
  cases c with
  | add target r =>
    simp only [outcome]
    cases hadd : (sets target).add r with
    | ok s => exact h.add hadd
    | error f => exact h
  | extend target other skip =>
    have hadd := WellFormed.addAll h skip (sets other).rules
    rw [outcome, RuleSet.extend]
    split
    · rename_i s heq
      rw [Call.target, heq] at hadd
      exact ⟨hadd.names, hadd.filled⟩
    · rename_i s f heq
      rwa [Call.target, heq] at hadd

/-- The rules that go to one of the sets, among insertions into all of them. -/
def into [DecidableEq κ] (k : κ) (log : List (κ × Rule)) : List Rule :=
  (log.filter fun e => e.1 = k).map Prod.snd

theorem into_append [DecidableEq κ] (k : κ) (log log' : List (κ × Rule)) :
    into k (log ++ log') = into k log ++ into k log' := by
  simp [into]

theorem into_map [DecidableEq κ] (k l : κ) (rs : List Rule) :
    into k (rs.map (l, ·)) = if l = k then rs else [] := by
  split <;> simp [into, List.filter_map, Function.comp_def, *]

namespace Family

def Fresh (sets : Family κ) : Prop :=
  ∀ k, (sets k).rules = []

theorem Fresh.wellFormed {sets : Family κ} (h : sets.Fresh) (k : κ) : (sets k).WellFormed :=
  ⟨by simp [names, h k], by simp [h k]⟩

variable [DecidableEq κ]

/-- The sets after a call: its target has changed, as far as the call got. -/
def call (sets : Family κ) (c : Call κ) : Family κ :=
  Function.update sets c.target (c.outcome sets).1

/-- **The sets after calls**, whichever of them fail. -/
def after (sets : Family κ) (calls : List (Call κ)) : Family κ :=
  calls.foldl call sets

/-- The insertions of calls, each with the set that it goes to, in the order in which they
succeed. -/
def insertions (sets : Family κ) : List (Call κ) → List (κ × Rule)
  | [] => []
  | c :: calls => (c.inserted sets).map (c.target, ·) ++ insertions (sets.call c) calls

theorem after_append (sets : Family κ) (earlier later : List (Call κ)) :
    sets.after (earlier ++ later) = (sets.after earlier).after later :=
  List.foldl_append

/-! ### One call -/

theorem rules_call (sets : Family κ) (c : Call κ) (k : κ) :
    (sets.call c k).rules = (sets k).rules ++ into k ((c.inserted sets).map (c.target, ·)) := by
  rw [into_map, call]
  split
  · rename_i hk
    rw [← hk, Function.update_self, c.rules_outcome]
  · rename_i hk
    rw [Function.update_of_ne (Ne.symm hk), List.append_nil]

theorem wellFormed_call {sets : Family κ} (h : ∀ k, (sets k).WellFormed) (c : Call κ) (k : κ) :
    (sets.call c k).WellFormed := by
  by_cases hk : k = c.target
  · rw [call, hk, Function.update_self]
    exact c.wellFormed_outcome (h c.target)
  · rw [call, Function.update_of_ne hk]
    exact h k

/-! ### Many calls -/

/-- **The rules of a set after calls** are those it had, and those that were inserted, in order. -/
theorem rules_after (sets : Family κ) (calls : List (Call κ)) (k : κ) :
    (sets.after calls k).rules = (sets k).rules ++ into k (sets.insertions calls) := by
  induction calls generalizing sets with
  | nil => simp [after, insertions, into]
  | cons c calls ih =>
    rw [insertions, into_append, ← List.append_assoc, ← rules_call]
    exact ih (sets.call c)

theorem wellFormed_after {sets : Family κ} (h : ∀ k, (sets k).WellFormed) (calls : List (Call κ))
    (k : κ) : (sets.after calls k).WellFormed := by
  induction calls generalizing sets with
  | nil => exact h k
  | cons c calls ih => exact ih (wellFormed_call h c)

end Family

end

/-- A rule set that keeps all rules of an earlier one: they come first, in their old places, and
each is found under its name as before. -/
structure Grows (s t : RuleSet) : Prop where
  rules : s.rules <+: t.rules
  found : ∀ name r, s.get name = .ok r → t.get name = .ok r

theorem WellFormed.get_eq_ok_iff {s : RuleSet} (hs : s.WellFormed) {name : String} {r : Rule} :
    s.get name = .ok r ↔ r ∈ s.rules ∧ r.name = name :=
  RuleSet.get_eq_ok_iff.trans hs.find_eq_some_iff

/-- A well-formed set finds the rules of every set that it begins with. -/
theorem WellFormed.grows {s t : RuleSet} (hs : s.WellFormed) (ht : t.WellFormed)
    (h : s.rules <+: t.rules) : Grows s t :=
  ⟨h, fun _ _ hr => ht.get_eq_ok_iff.mpr ((hs.get_eq_ok_iff.mp hr).imp_left (h.subset ·))⟩

/-- **Rule sets only grow**, whatever calls are made and whichever of them fail. Names differ, no
rule or alternative is empty, and each rule is found under its name; rules come in the order in
which they were inserted, and stay as they are in the place where they are. Every rule can be
added whose name is free and that is filled, and an extension takes in what comes before the first
rule that it cannot take. -/
theorem Family.only_grow {κ : Type} [DecidableEq κ] {sets : Family κ} (hsets : sets.Fresh)
    (earlier later : List (Call κ)) (k : κ) :
    (sets.after earlier k).WellFormed ∧
    (∀ name r, (sets.after earlier k).get name = .ok r ↔
      r ∈ (sets.after earlier k).rules ∧ r.name = name) ∧
    (sets.after earlier k).rules = into k (sets.insertions earlier) ∧
    Grows (sets.after earlier k) (sets.after (earlier ++ later) k) ∧
    (∀ r s, (sets.after earlier k).add r = .ok s ↔
      r.name ∉ (sets.after earlier k).names ∧ r.Filled ∧
        s = { sets.after earlier k with rules := (sets.after earlier k).rules ++ [r] }) ∧
    ∀ l skip, Extension (sets.after earlier k) (sets.after earlier l) skip
      ((sets.after earlier k).extend (sets.after earlier l) skip) := by
  have hwell := wellFormed_after hsets.wellFormed
  have hrules : (sets.after earlier k).rules = into k (sets.insertions earlier) := by
    rw [rules_after, hsets k, List.nil_append]
  have hprefix : (sets.after earlier k).rules <+: (sets.after (earlier ++ later) k).rules := by
    rw [after_append, rules_after (sets.after earlier)]
    exact List.prefix_append _ _
  exact ⟨hwell earlier k, fun _ _ => (hwell earlier k).get_eq_ok_iff, hrules,
    (hwell earlier k).grows (hwell _ k) hprefix, fun _ _ => add_eq_ok_iff,
    fun l _ => extension (hwell earlier l).names⟩

/-! ### Clauses -/

namespace Clauses

def plain (name text : String) : Rule where
  name := name
  alternatives := [[.literal text]]

/-- Rules of one's own and common rules, of which the latter come with expressions. -/
def sets : Family String := fun k => { expressions := k == "common" }

/-- The own rules are extended by the common ones, of which the second has a name that is taken,
and by themselves. Both extensions fail. -/
def failing : List (Call String) :=
  [.add "common" (plain "title" "Lease"), .add "common" (plain "party" "Tenant"),
   .add "common" (plain "date" "May"), .add "own" (plain "party" "Owner"),
   .extend "own" "common" false, .extend "own" "own" false]

/-- The own rules and the common ones are extended by each other. -/
def returning : List (Call String) :=
  [.extend "own" "common" true, .extend "common" "own" true]

/-- The extension that fails leaves what it has added, and the rule that was there first stays. -/
theorem only_grow_clauses : sets.Fresh ∧
    (sets.after failing "own").names = ["party", "title"] ∧
    (sets.after failing "own").expressions = false ∧
    (sets.after (failing ++ returning) "own").names = ["party", "title", "date"] ∧
    (sets.after (failing ++ returning) "own").get "party" = .ok (plain "party" "Owner") := by
  have hfresh : sets.Fresh := fun _ => rfl
  obtain ⟨-, hfound, hrules, hgrows, -⟩ := Family.only_grow hfresh failing returning "own"
  have hlater := (Family.only_grow hfresh (failing ++ returning) [] "own").2.2.1
  have hparty : (sets.after failing "own").get "party" = .ok (plain "party" "Owner") :=
    (hfound _ _).mpr ⟨by rw [hrules]; decide +kernel, rfl⟩
  refine ⟨hfresh, ?_, by decide +kernel, ?_, hgrows.found _ _ hparty⟩
  · rw [names, hrules]
    decide +kernel
  · rw [names, hlater]
    decide +kernel

end Clauses

end Covenant.RuleSet
