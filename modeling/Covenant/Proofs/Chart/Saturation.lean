import Covenant.Proofs.Chart.Pieces

/-!
Charts hold all items that follow.

* `Chart.Closed`: a chart that all consequences of its items have been drawn in.
* `Chart.closed_saturate`: the chart of a text is closed. Every step moves an item from the
  agenda to those processed, none comes back, and there are no more items than steps.
* `Chart.Closed.ended`: a closed chart knows where trees of the goals that it has begun end.
-/

namespace Covenant

/-- The rest of a text from a position on. -/
theorem getD_suffixes (cs : List Char) (i : Nat) : (suffixes cs).getD i [] = cs.drop i := by
  have hrests : ∀ (cs : List Char) (i : Nat), (rests cs)[i]?.getD [] = cs.drop i := by
    intro cs
    induction cs with
    | nil => intro i; cases i <;> simp [rests]
    | cons c cs ih => intro i; cases i <;> simp [rests, ih]
  rw [suffixes, Array.getD_eq_getD_getElem?, List.getElem?_toArray, hrests]

/-! ### Items -/

namespace Item

variable {N T : Type}

/-- An item whose parts and positions exist. -/
structure Valid (g : Cfg N T) (cs : List Char) (x : Item N) : Prop where
  goal : x.goal ∈ g.goals
  parts : ∃ ps, (g.productions x.goal)[x.production]? = some ps ∧ x.dot ≤ ps.length
  start : x.start ≤ cs.length
  stop : x.stop ≤ cs.length

variable {g : Cfg N T} {cs : List Char}

theorem valid_begin (hgoals : ∀ a, g.productions a ≠ [] → a ∈ g.goals) {n : N} {i : Nat}
    (hi : i ≤ cs.length) {x : Item N} (hx : x ∈ g.begin n i) : x.Valid g cs := by
  obtain ⟨q, hq, rfl⟩ := List.mem_map.mp hx
  have hlt := List.mem_range.mp hq
  refine ⟨hgoals n fun hnil => by simp [hnil] at hlt, ⟨_, List.getElem?_eq_getElem hlt, ?_⟩, hi, hi⟩
  exact Nat.zero_le _

theorem Valid.advance {x : Item N} (h : x.Valid g cs) {p : Part N T} (hnext : g.next? x = some p)
    {k : Nat} (hk : k ≤ cs.length) : (x.advance k).Valid g cs := by
  obtain ⟨ps, hps, _⟩ := h.parts
  refine ⟨h.goal, ⟨ps, hps, ?_⟩, h.start, hk⟩
  rw [Cfg.next?, Cfg.parts, hps] at hnext
  exact (List.getElem?_eq_some_iff.mp hnext).1

def all (g : Cfg N T) (cs : List Char) : List (Item N) :=
  g.goals.flatMap fun a => (g.productions a).zipIdx.flatMap fun (ps, q) =>
    (List.range (ps.length + 1)).flatMap fun dot => (List.range (cs.length + 1)).flatMap fun i =>
      (List.range (cs.length + 1)).map fun k => ⟨a, q, dot, i, k⟩

theorem Valid.mem_all {x : Item N} (h : x.Valid g cs) : x ∈ all g cs := by
  obtain ⟨ps, hps, hdot⟩ := h.parts
  refine List.mem_flatMap.mpr ⟨x.goal, h.goal, List.mem_flatMap.mpr ⟨(ps, x.production), ?_, ?_⟩⟩
  · exact List.mem_zipIdx_iff_getElem?.mpr hps
  · refine List.mem_flatMap.mpr ⟨x.dot, List.mem_range.mpr (Nat.lt_succ_of_le hdot), ?_⟩
    refine List.mem_flatMap.mpr ⟨x.start, List.mem_range.mpr (Nat.lt_succ_of_le h.start), ?_⟩
    exact List.mem_map.mpr ⟨x.stop, List.mem_range.mpr (Nat.lt_succ_of_le h.stop), rfl⟩

theorem length_all (g : Cfg N T) (cs : List Char) :
    (all g cs).length = g.size * ((cs.length + 1) * (cs.length + 1)) := by
  have hfold : ∀ pss : List (List (Part N T)),
      pss.foldr (fun ps n => ps.length + 1 + n) 0 = (pss.map fun ps => ps.length + 1).sum := by
    intro pss
    induction pss with
    | nil => rfl
    | cons ps pss ih => rw [List.foldr_cons, ih, List.map_cons, List.sum_cons]
  have hgoal : ∀ (b : Nat) (pss : List (List (Part N T))) (n : Nat),
      ((pss.zipIdx n).map fun e => (e.1.length + 1) * b).sum =
        (pss.map fun ps => ps.length + 1).sum * b := by
    intro b pss
    induction pss with
    | nil => simp
    | cons ps pss ih =>
      intro n
      rw [List.zipIdx_cons, List.map_cons, List.sum_cons, ih, List.map_cons, List.sum_cons,
        Nat.add_mul (ps.length + 1)]
  rw [Cfg.size, hfold, all]
  generalize hb : (cs.length + 1) * (cs.length + 1) = b
  induction g.goals with
  | nil => simp
  | cons a as ih =>
    rw [List.flatMap_cons, List.length_append, ih, List.flatMap_cons, List.map_append,
      List.sum_append, Nat.add_mul, ← hgoal b (g.productions a) 0, List.length_flatMap]
    simp [List.length_flatMap, hb]

theorem next_eq_of_drop {x : Item N} {p : Part N T} {ps : List (Part N T)}
    (h : (g.parts x.goal x.production).drop x.dot = p :: ps) :
    g.next? x = some p ∧ (g.parts x.goal x.production).drop (x.dot + 1) = ps := by
  constructor
  · have hhead := congrArg List.head? h
    rwa [List.head?_drop] at hhead
  · rw [← List.tail_drop, h, List.tail_cons]

end Item

namespace Chart

variable {N T : Type} [DecidableEq N] [Hashable N]

/-- **A closed chart**: whatever follows from an item that was seen has been seen. -/
structure Closed (g : Cfg N T) (cs : List Char) (c : Chart N) : Prop where
  predict : ∀ x ∈ c.seen, ∀ n, g.next? x = some (.goal n) → ∀ y ∈ g.begin n x.stop, y ∈ c.seen
  scan : ∀ x ∈ c.seen, ∀ t, g.next? x = some (.token t) →
    ∀ m ∈ g.tokens t (cs.drop x.stop), x.advance (x.stop + m) ∈ c.seen
  complete : ∀ x ∈ c.seen, ∀ n, g.next? x = some (.goal n) →
    ∀ k ∈ c.ended.getD (n, x.stop) [], x.advance k ∈ c.seen
  ended : ∀ x ∈ c.seen, g.next? x = none → x.stop ∈ c.ended.getD (x.goal, x.start) []

/-! ### Adding items -/

/-- The items seen are those processed and those on the agenda, each once. -/
structure Agenda (c : Chart N) (processed : List (Item N)) : Prop where
  seen : ∀ x, x ∈ c.seen ↔ x ∈ processed ∨ x ∈ c.agenda
  nodup : (processed ++ c.agenda).Nodup

/-- What adding items does: they are seen, and nothing else changes. -/
structure Extends (c c' : Chart N) (xs : List (Item N)) : Prop where
  seen : ∀ x, x ∈ c'.seen ↔ x ∈ c.seen ∨ x ∈ xs
  waiting : c'.waiting = c.waiting
  ended : c'.ended = c.ended

theorem push_spec {c : Chart N} {processed : List (Item N)} (h : c.Agenda processed)
    (x : Item N) : (c.push x).Agenda processed ∧ Extends c (c.push x) [x] := by
  unfold push
  split
  · rename_i hseen
    refine ⟨h, fun y => ?_, rfl, rfl⟩
    rw [List.mem_singleton]
    constructor
    · exact .inl
    · rintro (hy | rfl)
      · exact hy
      · exact Std.HashSet.mem_iff_contains.mpr hseen
  · rename_i hseen
    have hnew : x ∉ c.seen := hseen
    have hnew' := (h.seen x).not.mp hnew
    refine ⟨⟨fun y => ?_, ?_⟩, fun y => ?_, rfl, rfl⟩
    · simp only [Std.HashSet.mem_insert, beq_iff_eq, h.seen, List.mem_cons, eq_comm (a := x)]
      tauto
    · rw [List.nodup_middle, List.nodup_cons, List.mem_append]
      exact ⟨hnew', h.nodup⟩
    · simp only [Std.HashSet.mem_insert, beq_iff_eq, List.mem_singleton, eq_comm (a := x)]
      tauto

theorem pushAll_spec {c : Chart N} {processed : List (Item N)} (h : c.Agenda processed)
    (xs : List (Item N)) : (c.pushAll xs).Agenda processed ∧ Extends c (c.pushAll xs) xs := by
  induction xs generalizing c with
  | nil => exact ⟨h, by simp [pushAll], rfl, rfl⟩
  | cons x xs ih =>
    obtain ⟨hx, hextends⟩ := push_spec h x
    obtain ⟨hall, hrest⟩ := ih hx
    refine ⟨hall, fun y => ?_, hrest.waiting.trans hextends.waiting, hrest.ended.trans hextends.ended⟩
    refine (hrest.seen y).trans ?_
    rw [hextends.seen, List.mem_singleton, List.mem_cons, or_assoc]

theorem ended_pushAll (c : Chart N) (xs : List (Item N)) : (c.pushAll xs).ended = c.ended := by
  induction xs generalizing c with
  | nil => rfl
  | cons x xs ih =>
    refine (ih (c.push x)).trans ?_
    unfold push
    split <;> rfl

theorem mem_seen_pushAll {c : Chart N} (xs : List (Item N)) {y : Item N} (hy : y ∈ c.seen) :
    y ∈ (c.pushAll xs).seen := by
  induction xs generalizing c with
  | nil => exact hy
  | cons x xs ih =>
    refine ih (c := c.push x) ?_
    unfold push
    split
    · exact hy
    · exact Std.HashSet.mem_insert.mpr (.inr hy)

/-! ### Drawing consequences -/

/-- **What holds between the steps**: all consequences of the processed items have been
drawn. -/
structure Invariant (g : Cfg N T) (cs : List Char) (c : Chart N) (processed : List (Item N)) :
    Prop where
  agenda : c.Agenda processed
  valid : ∀ x ∈ c.seen, x.Valid g cs
  waiting : ∀ n i, ∀ x, x ∈ c.waiting.getD (n, i) [] ↔
    x ∈ processed ∧ g.next? x = some (.goal n) ∧ x.stop = i
  ended : ∀ n i, ∀ k ∈ c.ended.getD (n, i) [], k ≤ cs.length
  predict : ∀ x ∈ processed, ∀ n, g.next? x = some (.goal n) →
    ∀ y ∈ g.begin n x.stop, y ∈ c.seen
  scan : ∀ x ∈ processed, ∀ t, g.next? x = some (.token t) →
    ∀ m ∈ g.tokens t (cs.drop x.stop), x.advance (x.stop + m) ∈ c.seen
  complete : ∀ x ∈ processed, ∀ n, g.next? x = some (.goal n) →
    ∀ k ∈ c.ended.getD (n, x.stop) [], x.advance k ∈ c.seen
  completed : ∀ x ∈ processed, g.next? x = none → x.stop ∈ c.ended.getD (x.goal, x.start) []

section

variable {g : Cfg N T} {cs : List Char}

/-- What a step has to see to for the invariant: the item `x` joins those processed, and
`ys` are added. -/
theorem Invariant.step {c c' : Chart N} {processed : List (Item N)} {x : Item N}
    (h : Invariant g cs c processed) (hseen : c'.seen = c.seen) (hagenda : c.agenda = x :: c'.agenda)
    {ys : List (Item N)} (hvalid : ∀ y ∈ ys, y.Valid g cs)
    (hwaiting : ∀ n i, ∀ y, y ∈ c'.waiting.getD (n, i) [] ↔
      y ∈ x :: processed ∧ g.next? y = some (.goal n) ∧ y.stop = i)
    (hended : ∀ n i, ∀ k ∈ c'.ended.getD (n, i) [], k ≤ cs.length)
    (hpredict : ∀ n, g.next? x = some (.goal n) → ∀ y ∈ g.begin n x.stop, y ∈ ys)
    (hscan : ∀ t, g.next? x = some (.token t) →
      ∀ m ∈ g.tokens t (cs.drop x.stop), x.advance (x.stop + m) ∈ ys)
    (hcomplete : ∀ y ∈ x :: processed, ∀ n, g.next? y = some (.goal n) →
      ∀ k ∈ c'.ended.getD (n, y.stop) [], y.advance k ∈ c.seen ∨ y.advance k ∈ ys)
    (hcompleted : ∀ y ∈ x :: processed, g.next? y = none →
      y.stop ∈ c'.ended.getD (y.goal, y.start) []) :
    Invariant g cs (c'.pushAll ys) (x :: processed) := by
  have hmoved : c'.Agenda (x :: processed) := by
    refine ⟨fun y => ?_, ?_⟩
    · rw [hseen, h.agenda.seen, hagenda, List.mem_cons, List.mem_cons]
      tauto
    · have hnodup := h.agenda.nodup
      rwa [hagenda, List.nodup_middle] at hnodup
  obtain ⟨hall, hextends⟩ := pushAll_spec hmoved ys
  have hold : ∀ y ∈ c.seen, y ∈ (c'.pushAll ys).seen := fun y hy =>
    (hextends.seen y).mpr (.inl (hseen ▸ hy))
  have hnew : ∀ y ∈ ys, y ∈ (c'.pushAll ys).seen := fun y hy => (hextends.seen y).mpr (.inr hy)
  refine ⟨hall, fun y hy => ?_, ?_, ?_, fun y hy n hn z hz => ?_, fun y hy t ht m hm => ?_,
    fun y hy n hn k hk => ?_, ?_⟩
  · rcases (hextends.seen y).mp hy with hy | hy
    · exact h.valid y (hseen ▸ hy)
    · exact hvalid y hy
  · rwa [hextends.waiting]
  · rwa [hextends.ended]
  · rcases List.mem_cons.mp hy with rfl | hy
    · exact hnew z (hpredict n hn z hz)
    · exact hold z (h.predict y hy n hn z hz)
  · rcases List.mem_cons.mp hy with rfl | hy
    · exact hnew _ (hscan t ht m hm)
    · exact hold _ (h.scan y hy t ht m hm)
  · rw [hextends.ended] at hk
    exact (hcomplete y hy n hn k hk).elim (hold _) (hnew _)
  · rwa [hextends.ended]

/-- A value joins those that a table lists for a key. -/
theorem mem_getD_insert_iff {α : Type} {m : Std.HashMap (N × Nat) (List α)} {a b : N × Nat}
    {v w : α} :
    w ∈ (m.insert a (v :: m.getD a [])).getD b [] ↔ (a = b ∧ w = v) ∨ w ∈ m.getD b [] := by
  rw [Std.HashMap.getD_insert]
  split
  · rename_i hkey
    cases eq_of_beq hkey
    simp
  · rename_i hkey
    have hne : a ≠ b := fun hab => hkey (beq_iff_eq.mpr hab)
    simp [hne]

section

variable {c : Chart N} {processed rest : List (Item N)} {x : Item N}

/-- Where no goal comes next in the item that joins, the same items wait. -/
theorem Invariant.mem_waiting_iff (h : Invariant g cs c processed)
    (hnext : ∀ n, g.next? x ≠ some (.goal n)) (n : N) (i : Nat) (y : Item N) :
    y ∈ c.waiting.getD (n, i) [] ↔
      y ∈ x :: processed ∧ g.next? y = some (.goal n) ∧ y.stop = i := by
  rw [h.waiting, List.mem_cons]
  constructor
  · exact fun ⟨hy, hn⟩ => ⟨.inr hy, hn⟩
  · rintro ⟨rfl | hy, hn⟩
    · exact absurd hn.1 (hnext n)
    · exact ⟨hy, hn⟩

/-- Where no goal comes next in the item that joins, those that wait have moved on. -/
theorem Invariant.advance_mem_seen (h : Invariant g cs c processed)
    (hnext : ∀ n, g.next? x ≠ some (.goal n)) {y : Item N} (hy : y ∈ x :: processed) {n : N}
    (hn : g.next? y = some (.goal n)) {k : Nat} (hk : k ∈ c.ended.getD (n, y.stop) []) :
    y.advance k ∈ c.seen := by
  rcases List.mem_cons.mp hy with rfl | hy
  · exact absurd hn (hnext n)
  · exact h.complete y hy n hn k hk

/-- Where the item that joins is not read to its end, no end is missing. -/
theorem Invariant.stop_mem_ended (h : Invariant g cs c processed) (hnext : g.next? x ≠ none)
    {y : Item N} (hy : y ∈ x :: processed) (hn : g.next? y = none) :
    y.stop ∈ c.ended.getD (y.goal, y.start) [] := by
  rcases List.mem_cons.mp hy with rfl | hy
  · exact absurd hn hnext
  · exact h.completed y hy hn

/-- A goal has been read: its end is noted, and those that wait for it move on. -/
theorem Invariant.process_none (h : Invariant g cs c processed) (hagenda : c.agenda = x :: rest)
    (hx : x.Valid g cs) (hnext : g.next? x = none) :
    Invariant g cs
      (pushAll
        { c with
          agenda := rest
          ended := c.ended.insert (x.goal, x.start) (x.stop :: c.ended.getD (x.goal, x.start) []) }
        ((c.waiting.getD (x.goal, x.start) []).map fun w => w.advance x.stop))
      (x :: processed) := by
  have hgoal : ∀ n, g.next? x ≠ some (.goal n) := by simp [hnext]
  refine h.step ?_ ?_ ?_ (h.mem_waiting_iff hgoal) ?_ ?_ ?_ ?_ ?_
  · rfl
  · exact hagenda
  · intro y hy
    obtain ⟨w, hw, rfl⟩ := List.mem_map.mp hy
    obtain ⟨hprocessed, hnextw, _⟩ := (h.waiting _ _ w).mp hw
    exact (h.valid w ((h.agenda.seen w).mpr (.inl hprocessed))).advance hnextw hx.stop
  · intro n i k hk
    rcases mem_getD_insert_iff.mp hk with ⟨-, rfl⟩ | hk
    · exact hx.stop
    · exact h.ended _ _ k hk
  · exact fun n hn => absurd hn (hgoal n)
  · exact fun t ht => absurd (hnext.symm.trans ht) (by simp)
  · -- the new end is one for those that wait, the others have been seen to
    intro y hy n hn k hk
    rcases mem_getD_insert_iff.mp hk with ⟨hkey, rfl⟩ | hk
    · obtain ⟨rfl, hstart⟩ := Prod.mk.inj hkey
      have hprocessed : y ∈ processed := by
        rcases List.mem_cons.mp hy with rfl | hy
        · exact absurd hn (hgoal _)
        · exact hy
      exact .inr (List.mem_map_of_mem ((h.waiting _ _ y).mpr ⟨hprocessed, hn, hstart.symm⟩))
    · exact .inl (h.advance_mem_seen hgoal hy hn hk)
  · intro y hy hn
    rcases List.mem_cons.mp hy with rfl | hy
    · exact mem_getD_insert_iff.mpr (.inl ⟨rfl, rfl⟩)
    · exact mem_getD_insert_iff.mpr (.inr (h.completed y hy hn))

/-- A goal comes next: the item waits, the goal is begun, and where it has ended the item
moves on. -/
theorem Invariant.process_goal (hgoals : ∀ a, g.productions a ≠ [] → a ∈ g.goals)
    (h : Invariant g cs c processed) (hagenda : c.agenda = x :: rest) (hx : x.Valid g cs) {n : N}
    (hnext : g.next? x = some (.goal n)) :
    Invariant g cs
      (pushAll
        { c with
          agenda := rest
          waiting := c.waiting.insert (n, x.stop) (x :: c.waiting.getD (n, x.stop) []) }
        (g.begin n x.stop ++ (c.ended.getD (n, x.stop) []).map x.advance))
      (x :: processed) := by
  refine h.step ?_ ?_ ?_ ?_ h.ended ?_ ?_ ?_ fun y => h.stop_mem_ended (x := x) (by simp [hnext])
  · rfl
  · exact hagenda
  · intro y hy
    rcases List.mem_append.mp hy with hy | hy
    · exact Item.valid_begin hgoals hx.stop hy
    · obtain ⟨k, hk, rfl⟩ := List.mem_map.mp hy
      exact hx.advance hnext (h.ended _ _ k hk)
  · intro m i y
    rw [mem_getD_insert_iff, h.waiting, List.mem_cons]
    constructor
    · rintro (⟨hkey, rfl⟩ | ⟨hy, hn⟩)
      · obtain ⟨rfl, rfl⟩ := Prod.mk.inj hkey
        exact ⟨.inl rfl, hnext, rfl⟩
      · exact ⟨.inr hy, hn⟩
    · rintro ⟨rfl | hy, hn, rfl⟩
      · cases hnext.symm.trans hn
        exact .inl ⟨rfl, rfl⟩
      · exact .inr ⟨hy, hn, rfl⟩
  · intro m hm y hy
    cases hnext.symm.trans hm
    exact List.mem_append_left _ hy
  · exact fun t ht => absurd (hnext.symm.trans ht) (by simp)
  · intro y hy m hm k hk
    rcases List.mem_cons.mp hy with rfl | hy
    · cases hnext.symm.trans hm
      exact .inr (List.mem_append_right _ (List.mem_map_of_mem hk))
    · exact .inl (h.complete y hy m hm k hk)

/-- A token comes next: it is read wherever it can end. -/
theorem Invariant.process_token (hbounded : ∀ t s, ∀ n ∈ g.tokens t s, n ≤ s.length)
    (h : Invariant g cs c processed) (hagenda : c.agenda = x :: rest) (hx : x.Valid g cs) {t : T}
    (hnext : g.next? x = some (.token t)) :
    Invariant g cs
      (pushAll { c with agenda := rest }
        ((g.tokens t (cs.drop x.stop)).map fun n => x.advance (x.stop + n)))
      (x :: processed) := by
  have hgoal : ∀ n, g.next? x ≠ some (.goal n) := by simp [hnext]
  refine h.step ?_ ?_ ?_ (h.mem_waiting_iff hgoal) h.ended ?_ ?_ ?_
    fun y => h.stop_mem_ended (x := x) (by simp [hnext])
  · rfl
  · exact hagenda
  · intro y hy
    obtain ⟨m, hm, rfl⟩ := List.mem_map.mp hy
    have hle := hbounded t _ m hm
    rw [List.length_drop] at hle
    have hstop := hx.stop
    exact hx.advance hnext (by omega)
  · exact fun n hn => absurd hn (hgoal n)
  · intro u hu m hm
    cases hnext.symm.trans hu
    exact List.mem_map_of_mem hm
  · exact fun y hy n hn k hk => .inl (h.advance_mem_seen hgoal hy hn hk)

/-- **One step keeps the invariant**: the item joins those processed. -/
theorem Invariant.process (hgoals : ∀ a, g.productions a ≠ [] → a ∈ g.goals)
    (hbounded : ∀ t s, ∀ n ∈ g.tokens t s, n ≤ s.length) (h : Invariant g cs c processed)
    (hagenda : c.agenda = x :: rest) :
    Invariant g cs (process g (suffixes cs) { c with agenda := rest } x) (x :: processed) := by
  have hx : x.Valid g cs := h.valid x ((h.agenda.seen x).mpr (.inr (by simp [hagenda])))
  unfold Chart.process
  split
  · rename_i hnext
    exact h.process_none hagenda hx hnext
  · rename_i n hnext
    simp only [ended_pushAll]
    simp only [pushAll, ← List.foldl_append]
    exact h.process_goal hgoals hagenda hx hnext
  · rename_i t hnext
    rw [getD_suffixes]
    exact h.process_token hbounded hagenda hx hnext

end

theorem mem_seen_process {c : Chart N} (x : Item N) {y : Item N} (hy : y ∈ c.seen) :
    y ∈ (process g (suffixes cs) c x).seen := by
  unfold process
  split
  · exact mem_seen_pushAll _ hy
  · exact mem_seen_pushAll _ (mem_seen_pushAll _ hy)
  · exact mem_seen_pushAll _ hy

/-- **The steps suffice**: they end with nothing on the agenda. -/
theorem Invariant.run (hgoals : ∀ a, g.productions a ≠ [] → a ∈ g.goals)
    (hbounded : ∀ t s, ∀ n ∈ g.tokens t s, n ≤ s.length) {c : Chart N}
    {processed : List (Item N)} (h : Invariant g cs c processed) {fuel : Nat}
    (hfuel : (Item.all g cs).length < processed.length + fuel) :
    ∃ processed', Invariant g cs (run g (suffixes cs) fuel c) processed' ∧
      (run g (suffixes cs) fuel c).agenda = [] ∧
      ∀ x ∈ c.seen, x ∈ (run g (suffixes cs) fuel c).seen := by
  induction fuel generalizing c processed with
  | zero =>
    have hsub : processed ⊆ Item.all g cs := fun x hx =>
      (h.valid x ((h.agenda.seen x).mpr (.inl hx))).mem_all
    have hle := (List.Nodup.subperm (List.nodup_append.mp h.agenda.nodup).1 hsub).length_le
    omega
  | succ fuel ih =>
    rw [Chart.run]
    split
    · rename_i hagenda
      exact ⟨processed, h, hagenda, fun x hx => hx⟩
    · rename_i x rest hagenda
      have hstep := h.process hgoals hbounded hagenda
      obtain ⟨processed', hinvariant, hempty, hmono⟩ := ih hstep (by rw [List.length_cons]; omega)
      exact ⟨processed', hinvariant, hempty, fun y hy => hmono y (mem_seen_process _ hy)⟩

theorem invariant_begin (hgoals : ∀ a, g.productions a ≠ [] → a ∈ g.goals) (start : N) :
    Invariant g cs (empty.pushAll (g.begin start 0)) [] ∧
      ∀ x ∈ g.begin start 0, x ∈ (empty.pushAll (g.begin start 0)).seen := by
  have hempty : (empty : Chart N).Agenda [] := ⟨by simp [empty], by simp [empty]⟩
  obtain ⟨hagenda, hextends⟩ := pushAll_spec hempty (g.begin start 0)
  have hnone : ∀ x, x ∉ (empty : Chart N).seen := by simp [empty]
  refine ⟨⟨hagenda, fun x hx => ?_, fun n i x => ?_, fun n i k hk => ?_, by simp, by simp, by simp,
    by simp⟩, fun x hx => (hextends.seen x).mpr (.inr hx)⟩
  · exact Item.valid_begin hgoals (Nat.zero_le _) (((hextends.seen x).mp hx).resolve_left (hnone x))
  · rw [hextends.waiting]
    simp [empty]
  · rw [hextends.ended] at hk
    simp [empty] at hk

/-- **The chart of a text is closed**, and it holds the items that begin the start goal. -/
theorem closed_saturate (hgoals : ∀ a, g.productions a ≠ [] → a ∈ g.goals)
    (hbounded : ∀ t s, ∀ n ∈ g.tokens t s, n ≤ s.length) (start : N) :
    Closed g cs (saturate g start cs) ∧ ∀ x ∈ g.begin start 0, x ∈ (saturate g start cs).seen := by
  have hstart : Invariant g cs (empty.pushAll (g.begin start 0)) [] ∧ _ := invariant_begin hgoals start
  obtain ⟨hinvariant, hbegin⟩ := hstart
  have hfuel : (Item.all g cs).length < ([] : List (Item N)).length +
      (g.size * ((cs.length + 1) * (cs.length + 1)) + 1) := by
    rw [Item.length_all, List.length_nil]
    omega
  obtain ⟨processed, h, hempty, hmono⟩ := hinvariant.run hgoals hbounded hfuel
  have hprocessed : ∀ x, x ∈ (saturate g start cs).seen → x ∈ processed := by
    intro x hx
    rcases (h.agenda.seen x).mp hx with hx | hx
    · exact hx
    · rw [hempty] at hx
      cases hx
  exact ⟨⟨fun x hx => h.predict x (hprocessed x hx), fun x hx => h.scan x (hprocessed x hx),
    fun x hx => h.complete x (hprocessed x hx), fun x hx => h.completed x (hprocessed x hx)⟩,
    fun x hx => hmono x (hbegin x hx)⟩

/-! ### Where trees end -/

mutual

/-- **A closed chart knows where the trees of a goal end** that it has begun. -/
theorem Closed.ended_of_isPiece {c : Chart N} (h : Closed g cs c) {p : Part N T} {i k : Nat}
    {t : Tree N} (hp : Cfg.IsPiece g cs p i k t) :
    ∀ n, p = .goal n → (∀ y ∈ g.begin n i, y ∈ c.seen) → k ∈ c.ended.getD (n, i) [] :=
  match hp with
  | .leaf _ => fun n hn => by cases hn
  | @Cfg.IsPiece.node _ _ _ _ goal q i k ps ts hq hts => by
    intro n hn hbegin
    cases hn
    have hparts : g.parts goal q = ps := by rw [Cfg.parts, hq, Option.getD_some]
    have hfirst : (⟨goal, q, 0, i, i⟩ : Item N) ∈ c.seen :=
      hbegin _ (List.mem_map.mpr
        ⟨q, List.mem_range.mpr (List.getElem?_eq_some_iff.mp hq).1, rfl⟩)
    have hall : (g.parts goal q).drop 0 = ps ++ [] := by
      rw [List.append_nil, List.drop_zero, hparts]
    have hlast := h.seen_of_arePieces hts _ hfirst rfl hall
    have hnext : g.next? (⟨goal, q, ps.length, i, k⟩ : Item N) = none := by
      rw [Cfg.next?, hparts, List.getElem?_eq_none_iff]
    rw [Nat.zero_add] at hlast
    exact h.ended _ hlast hnext

/-- A closed chart holds the item behind trees of its next parts. -/
theorem Closed.seen_of_arePieces {c : Chart N} (h : Closed g cs c) {ps : List (Part N T)}
    {i k : Nat} {ts : List (Tree N)} (hts : Cfg.ArePieces g cs ps i k ts) :
    ∀ x ∈ c.seen, x.stop = i → ∀ {rest}, (g.parts x.goal x.production).drop x.dot = ps ++ rest →
      { x with dot := x.dot + ps.length, stop := k } ∈ c.seen :=
  match hts with
  | .nil => by
    rintro x hx rfl rest -
    exact hx
  | @Cfg.ArePieces.cons _ _ _ _ p ps i j k t ts hp hrest => by
    rintro x hx rfl rest hparts
    obtain ⟨hnext, hdrop⟩ := Item.next_eq_of_drop hparts
    have hadvance : x.advance j ∈ c.seen := by
      cases p with
      | token u =>
        obtain ⟨n, hn, rfl, _⟩ := Cfg.isPiece_token_iff.mp hp
        exact h.scan x hx u hnext n hn
      | goal n =>
        exact h.complete x hx n hnext j (h.ended_of_isPiece hp n rfl (h.predict x hx n hnext))
    have hlast := h.seen_of_arePieces hrest _ hadvance rfl hdrop
    rwa [Item.advance, Nat.add_assoc, Nat.add_comm 1] at hlast

end

end

end Chart

end Covenant
