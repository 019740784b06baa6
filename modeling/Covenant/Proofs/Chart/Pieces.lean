import Mathlib
import Covenant.Chart.Tree

/-!
Trees as a relation.

* `Cfg.IsPiece`: a tree is one of a part of a production, over a stretch of the text.
* `Cfg.arePieces_snoc_iff`: trees for a beginning of a production and one part more.
* `Cfg.height_le_of_passed`: when no goal leads back to itself without reading anything, trees are
  no higher than the grammar and the text allow.
-/

namespace Covenant

namespace Tree

variable {N : Type}

mutual

/-- How many goals stand above each other in a tree. -/
def height : Tree N → Nat
  | .leaf _ _ => 0
  | .node _ _ ts => heights ts + 1

def heights : List (Tree N) → Nat
  | [] => 0
  | t :: ts => max t.height (heights ts)

end

theorem heights_le_iff {ts : List (Tree N)} {n : Nat} :
    heights ts ≤ n ↔ ∀ t ∈ ts, t.height ≤ n := by
  induction ts with
  | nil => simp [heights]
  | cons t ts ih => rw [heights, Nat.max_le, ih, List.forall_mem_cons]

end Tree

namespace Cfg

variable {N T : Type}

mutual

/-- **A tree of a part of a production** over the text from one position to another. -/
inductive IsPiece (g : Cfg N T) (cs : List Char) : Part N T → Nat → Nat → Tree N → Prop where
  | leaf {t : T} {i n : Nat} (h : n ∈ g.tokens t (cs.drop i)) :
      IsPiece g cs (.token t) i (i + n) (.leaf i ((cs.drop i).take n))
  | node {goal : N} {q i k : Nat} {ps : List (Part N T)} {ts : List (Tree N)}
      (hq : (g.productions goal)[q]? = some ps) (h : ArePieces g cs ps i k ts) :
      IsPiece g cs (.goal goal) i k (.node goal q ts)

/-- Trees of parts, one after the other. -/
inductive ArePieces (g : Cfg N T) (cs : List Char) :
    List (Part N T) → Nat → Nat → List (Tree N) → Prop where
  | nil {i : Nat} : ArePieces g cs [] i i []
  | cons {p : Part N T} {ps : List (Part N T)} {i j k : Nat} {t : Tree N} {ts : List (Tree N)}
      (h : IsPiece g cs p i j t) (hrest : ArePieces g cs ps j k ts) :
      ArePieces g cs (p :: ps) i k (t :: ts)

end

section

variable {g : Cfg N T} {cs : List Char}

theorem isPiece_token_iff {x : T} {i k : Nat} {t : Tree N} :
    IsPiece g cs (.token x) i k t ↔ ∃ n ∈ g.tokens x (cs.drop i), k = i + n ∧
      t = .leaf i ((cs.drop i).take n) := by
  constructor
  · rintro ⟨h⟩
    exact ⟨_, h, rfl, rfl⟩
  · rintro ⟨n, h, rfl, rfl⟩
    exact .leaf h

theorem isPiece_goal_iff {a : N} {i k : Nat} {t : Tree N} :
    IsPiece g cs (.goal a) i k t ↔ ∃ q ps ts, t = .node a q ts ∧
      (g.productions a)[q]? = some ps ∧ ArePieces g cs ps i k ts := by
  constructor
  · rintro (_ | ⟨hq, h⟩)
    exact ⟨_, _, _, rfl, hq, h⟩
  · rintro ⟨q, ps, ts, rfl, hq, h⟩
    exact .node hq h

theorem arePieces_nil_iff {i k : Nat} {ts : List (Tree N)} :
    ArePieces g cs [] i k ts ↔ i = k ∧ ts = [] := by
  constructor
  · rintro ⟨⟩
    exact ⟨rfl, rfl⟩
  · rintro ⟨rfl, rfl⟩
    exact .nil

theorem arePieces_cons_iff {p : Part N T} {ps : List (Part N T)} {i k : Nat}
    {us : List (Tree N)} : ArePieces g cs (p :: ps) i k us ↔
      ∃ j t ts, us = t :: ts ∧ IsPiece g cs p i j t ∧ ArePieces g cs ps j k ts := by
  constructor
  · rintro (_ | ⟨h, hrest⟩)
    exact ⟨_, _, _, rfl, h, hrest⟩
  · rintro ⟨j, t, ts, rfl, h, hrest⟩
    exact .cons h hrest

theorem arePieces_append_iff {ps qs : List (Part N T)} {i k : Nat} {us : List (Tree N)} :
    ArePieces g cs (ps ++ qs) i k us ↔
      ∃ j ts ts', us = ts ++ ts' ∧ ArePieces g cs ps i j ts ∧ ArePieces g cs qs j k ts' := by
  induction ps generalizing i us with
  | nil =>
    constructor
    · intro h
      exact ⟨i, [], us, rfl, .nil, h⟩
    · rintro ⟨j, ts, ts', rfl, h, h'⟩
      obtain ⟨rfl, rfl⟩ := arePieces_nil_iff.mp h
      exact h'
  | cons p ps ih =>
    rw [List.cons_append, arePieces_cons_iff]
    constructor
    · rintro ⟨j, t, ts, rfl, h, hrest⟩
      obtain ⟨j', ts₁, ts₂, rfl, h₁, h₂⟩ := ih.mp hrest
      exact ⟨j', t :: ts₁, ts₂, rfl, .cons h h₁, h₂⟩
    · rintro ⟨j, ts, ts', rfl, h, h'⟩
      obtain ⟨j', t, ts, rfl, hp, hps⟩ := arePieces_cons_iff.mp h
      exact ⟨j', t, ts ++ ts', rfl, hp, ih.mpr ⟨j, ts, ts', rfl, hps, h'⟩⟩

/-- **Trees for a beginning of a production** and for one part more. -/
theorem arePieces_snoc_iff {ps : List (Part N T)} {p : Part N T} {i k : Nat}
    {us : List (Tree N)} : ArePieces g cs (ps ++ [p]) i k us ↔
      ∃ m ts t, us = ts ++ [t] ∧ ArePieces g cs ps i m ts ∧ IsPiece g cs p m k t := by
  rw [arePieces_append_iff]
  constructor
  · rintro ⟨m, ts, ts', rfl, h, h'⟩
    obtain ⟨j, t, ts', rfl, ht, hnil⟩ := arePieces_cons_iff.mp h'
    obtain ⟨rfl, rfl⟩ := arePieces_nil_iff.mp hnil
    exact ⟨m, ts, t, rfl, h, ht⟩
  · rintro ⟨m, ts, t, rfl, h, ht⟩
    exact ⟨m, ts, [t], rfl, h, .cons ht .nil⟩

mutual

theorem IsPiece.le {p : Part N T} {i k : Nat} {t : Tree N} (h : IsPiece g cs p i k t) : i ≤ k :=
  match h with
  | .leaf _ => Nat.le_add_right _ _
  | .node _ h => h.le

theorem ArePieces.le {ps : List (Part N T)} {i k : Nat} {ts : List (Tree N)}
    (h : ArePieces g cs ps i k ts) : i ≤ k :=
  match h with
  | .nil => Nat.le_refl _
  | .cons h hrest => Nat.le_trans h.le hrest.le

end

mutual

/-- **A tree ends in the text.** -/
theorem IsPiece.stop_le (hbounded : ∀ t s, ∀ n ∈ g.tokens t s, n ≤ s.length) {p : Part N T}
    {i k : Nat} {t : Tree N} (h : IsPiece g cs p i k t) (hi : i ≤ cs.length) : k ≤ cs.length :=
  match h with
  | .leaf hn => by
    have hle := hbounded _ _ _ hn
    rw [List.length_drop] at hle
    omega
  | .node _ hts => hts.stop_le hbounded hi

theorem ArePieces.stop_le (hbounded : ∀ t s, ∀ n ∈ g.tokens t s, n ≤ s.length)
    {ps : List (Part N T)} {i k : Nat} {ts : List (Tree N)} (h : ArePieces g cs ps i k ts)
    (hi : i ≤ cs.length) : k ≤ cs.length :=
  match h with
  | .nil => hi
  | .cons hp hps => hps.stop_le hbounded (hp.stop_le hbounded hi)

end

mutual

/-- **A tree ends at one position only.** -/
theorem IsPiece.stop_eq (hbounded : ∀ t s, ∀ n ∈ g.tokens t s, n ≤ s.length) {p : Part N T}
    {i k k' : Nat} {t : Tree N} (h : IsPiece g cs p i k t) (h' : IsPiece g cs p i k' t) : k = k' :=
  match h with
  | @IsPiece.leaf _ _ _ _ u i n hn => by
    obtain ⟨m, hm, rfl, htext⟩ := isPiece_token_iff.mp h'
    have hlength := congrArg List.length (Tree.leaf.inj htext).2
    have hle := hbounded u _ n hn
    have hle' := hbounded u _ m hm
    rw [List.length_take, List.length_take] at hlength
    omega
  | .node hq hts => by
    obtain ⟨q, ps, ts, heq, hq', hts'⟩ := isPiece_goal_iff.mp h'
    cases heq
    cases hq.symm.trans hq'
    exact hts.stop_eq hbounded hts'

theorem ArePieces.stop_eq (hbounded : ∀ t s, ∀ n ∈ g.tokens t s, n ≤ s.length)
    {ps : List (Part N T)} {i k k' : Nat} {ts : List (Tree N)} (h : ArePieces g cs ps i k ts)
    (h' : ArePieces g cs ps i k' ts) : k = k' :=
  match h with
  | .nil => (arePieces_nil_iff.mp h').1
  | .cons hp hps => by
    obtain ⟨j, t, ts, heq, hp', hps'⟩ := arePieces_cons_iff.mp h'
    cases heq
    cases hp.stop_eq hbounded hp'
    exact hps.stop_eq hbounded hps'

end

theorem ArePieces.length {ps : List (Part N T)} {i k : Nat} {ts : List (Tree N)}
    (h : ArePieces g cs ps i k ts) : ts.length = ps.length := by
  induction ps generalizing i ts with
  | nil =>
    obtain ⟨_, rfl⟩ := arePieces_nil_iff.mp h
    rfl
  | cons p ps ih =>
    obtain ⟨_, _, _, rfl, _, hrest⟩ := arePieces_cons_iff.mp h
    rw [List.length_cons, List.length_cons, ih hrest]

/-! ### Heights of trees -/

def Vanishes (g : Cfg N T) (p : Part N T) : Prop :=
  ∃ cs i t, IsPiece g cs p i i t

/-- A goal leads to another without reading anything besides it. -/
def Leads (g : Cfg N T) (a b : N) : Prop :=
  ∃ ps ∈ g.productions a, ∃ before after, ps = before ++ .goal b :: after ∧
    ∀ p ∈ before ++ after, g.Vanishes p

/-- The parts beside one that reads all of a stretch read nothing. -/
theorem ArePieces.vanishes {ps : List (Part N T)} {i : Nat} {ts : List (Tree N)}
    (h : ArePieces g cs ps i i ts) : ∀ p ∈ ps, g.Vanishes p := by
  induction ps generalizing ts with
  | nil => simp
  | cons p ps ih =>
    obtain ⟨j, t, ts, rfl, hp, hps⟩ := arePieces_cons_iff.mp h
    obtain rfl : i = j := Nat.le_antisymm hp.le hps.le
    exact List.forall_mem_cons.mpr ⟨⟨cs, i, t, hp⟩, ih hps⟩

/-- Where a tree of several stands, and what the others read if it reads everything. -/
theorem ArePieces.exists_of_mem {ps : List (Part N T)} {i k : Nat} {ts : List (Tree N)}
    (h : ArePieces g cs ps i k ts) {t : Tree N} (ht : t ∈ ts) :
    ∃ before p after j m, ps = before ++ p :: after ∧ IsPiece g cs p j m t ∧ i ≤ j ∧ m ≤ k ∧
      (i = j → m = k → ∀ p ∈ before ++ after, g.Vanishes p) := by
  obtain ⟨front, back, rfl⟩ := List.append_of_mem ht
  obtain ⟨before, rest, hps, hlength⟩ : ∃ before rest, ps = before ++ rest ∧
      before.length = front.length := by
    refine ⟨ps.take front.length, ps.drop front.length, (List.take_append_drop _ _).symm, ?_⟩
    have hlength := h.length
    rw [List.length_append] at hlength
    rw [List.length_take]
    omega
  subst hps
  obtain ⟨j, us, us', heq, hbefore, hrest⟩ := arePieces_append_iff.mp h
  obtain ⟨rfl, rfl⟩ := List.append_inj heq (hlength ▸ hbefore.length.symm)
  cases rest with
  | nil => cases (arePieces_nil_iff.mp hrest).2
  | cons p after =>
    obtain ⟨m, t', ts, hcons, hp, hafter⟩ := arePieces_cons_iff.mp hrest
    cases hcons
    refine ⟨before, p, after, j, m, rfl, hp, hbefore.le, hafter.le, fun hij hmk => ?_⟩
    subst hij hmk
    exact List.forall_mem_append.mpr ⟨hbefore.vanishes, hafter.vanishes⟩

/-- **Trees are no higher than the grammar and the text allow.** The goals that were passed
on the same stretch of text, `passed`, cannot come again. -/
theorem height_le_of_passed (hgoals : ∀ a, g.productions a ≠ [] → a ∈ g.goals)
    (hleads : ∀ a, ¬ Relation.TransGen g.Leads a a) {a : N} {i k : Nat} {t : Tree N}
    (h : IsPiece g cs (.goal a) i k t) {passed : List N} (hnodup : passed.Nodup)
    (hpassed : ∀ b ∈ passed, b ∈ g.goals ∧ Relation.TransGen g.Leads b a) :
    t.height ≤ g.goals.length * (k - i) + (g.goals.length - passed.length) := by
  induction hn : t.height using Nat.strong_induction_on generalizing a i k t passed with
  | h n ih =>
    subst hn
    obtain ⟨q, ps, ts, rfl, hq, hts⟩ := isPiece_goal_iff.mp h
    have ha : a ∈ g.goals := hgoals a fun hnil => by simp [hnil] at hq
    have hnew : (a :: passed).Nodup :=
      List.nodup_cons.mpr ⟨fun hmem => hleads a (hpassed a hmem).2, hnodup⟩
    have hlength : (a :: passed).length ≤ g.goals.length :=
      (List.Nodup.subperm hnew (List.cons_subset.mpr ⟨ha, fun b hb => (hpassed b hb).1⟩)).length_le
    rw [List.length_cons] at hlength
    rw [Tree.height]
    have hparts : Tree.heights ts ≤
        g.goals.length * (k - i) + (g.goals.length - (passed.length + 1)) := by
      rw [Tree.heights_le_iff]
      intro u hu
      have hlt : u.height < (Tree.node a q ts).height := by
        rw [Tree.height]
        exact Nat.lt_succ_of_le (Tree.heights_le_iff.mp (Nat.le_refl _) u hu)
      obtain ⟨before, p, after, j, m, rfl, hp, hij, hmk, hbeside⟩ := hts.exists_of_mem hu
      cases p with
      | token t =>
        obtain ⟨_, _, _, rfl⟩ := isPiece_token_iff.mp hp
        exact Nat.zero_le _
      | goal b =>
        have hjm := hp.le
        by_cases hsame : i = j ∧ m = k
        · -- the same stretch: the goal joins those that were passed
          obtain ⟨rfl, rfl⟩ := hsame
          have hstep : g.Leads a b := ⟨_, List.mem_of_getElem? hq, before, after, rfl, hbeside rfl rfl⟩
          refine ih _ hlt hp hnew (fun c hc => ?_) rfl
          rcases List.mem_cons.mp hc with rfl | hc
          · exact ⟨ha, .single hstep⟩
          · exact ⟨(hpassed c hc).1, (hpassed c hc).2.tail hstep⟩
        · -- a shorter stretch: all goals may come again
          have hshort := ih _ hlt hp List.nodup_nil (by simp) rfl
          have hmul : g.goals.length * (m - j) + g.goals.length ≤ g.goals.length * (k - i) := by
            rw [← Nat.mul_succ]
            exact Nat.mul_le_mul_left _ (by omega)
          simp only [List.length_nil, Nat.sub_zero] at hshort
          omega
    omega

/-- **Trees are no higher than the grammar and the text allow** when no goal leads back to
itself. -/
theorem height_lt_depth (hgoals : ∀ a, g.productions a ≠ [] → a ∈ g.goals)
    (hleads : ∀ a, ¬ Relation.TransGen g.Leads a a) {a : N} {k : Nat} {t : Tree N}
    (h : IsPiece g cs (.goal a) 0 k t) : t.height < g.depth k := by
  have hle := height_le_of_passed hgoals hleads h List.nodup_nil (by simp)
  rw [Nat.sub_zero, List.length_nil, Nat.sub_zero, ← Nat.mul_succ] at hle
  exact Nat.lt_succ_of_le hle

end

end Cfg

end Covenant
