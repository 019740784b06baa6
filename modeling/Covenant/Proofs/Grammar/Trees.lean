import Covenant.Proofs.Chart.Exhaustive
import Covenant.Proofs.Grammar.Derives
import Covenant.Proofs.Pattern.Ways

/-!
Trees of the grammar of a rule set are derivations.

* `RuleSet.productions_cfg`: the productions that the grammar of a rule set has.
* `derives_of_isPiece`: what a tree of a symbol stands for is derived by the symbol.
* `exists_isPiece`: every derivation is what a tree stands for.
* `isPiece_unique`: of one tree only.
-/

namespace Covenant

/-- A table made of a list holds the value of each of its members. -/
theorem getD_ofList_map {α β : Type} [BEq α] [LawfulBEq α] [Hashable α] (f : α → β) (as : List α)
    (a : α) (d : β) [Decidable (a ∈ as)] :
    (Std.HashMap.ofList (as.map fun b => (b, f b))).getD a d = if a ∈ as then f a else d := by
  have hinsert : ∀ (as : List α) (m : Std.HashMap α β), (∀ b, b ∈ m → m.getD b d = f b) →
      ∀ b, (b ∈ m.insertMany (as.map fun b => (b, f b)) ↔ b ∈ m ∨ b ∈ as) ∧
        (b ∈ m.insertMany (as.map fun b => (b, f b)) →
          (m.insertMany (as.map fun b => (b, f b))).getD b d = f b) := by
    intro as
    induction as with
    | nil => intro m hm b; simpa using hm b
    | cons a as ih =>
      intro m hm b
      have hnext : ∀ b, b ∈ m.insert a (f a) → (m.insert a (f a)).getD b d = f b := by
        intro b hb
        rw [Std.HashMap.getD_insert]
        split
        · rename_i heq
          rw [eq_of_beq heq]
        · rename_i hne
          rw [Std.HashMap.mem_insert] at hb
          exact hm b (hb.resolve_left hne)
      obtain ⟨hmem, hvalue⟩ := ih _ hnext b
      rw [List.map_cons, Std.HashMap.insertMany_cons]
      refine ⟨?_, hvalue⟩
      rw [hmem, Std.HashMap.mem_insert, beq_iff_eq, List.mem_cons, eq_comm, or_assoc, or_left_comm]
  obtain ⟨hmem, hvalue⟩ := hinsert as ∅ (by simp) a
  rw [Std.HashMap.ofList_eq_insertMany_empty]
  split
  · rename_i ha
    exact hvalue (hmem.mpr (.inr ha))
  · rename_i ha
    refine Std.HashMap.getD_eq_fallback fun hmem' => ha ?_
    simpa using hmem.mp hmem'

namespace RuleSet

variable {s : RuleSet}

/-- **The productions of a goal**, if the rule set has it. -/
theorem productions_cfg (a : Goal) :
    s.cfg.productions a = if a ∈ s.goals then a.productions s.find? else [] :=
  getD_ofList_map _ _ _ _

def listed (s : RuleSet) : Cfg Goal Terminal where
  goals := s.goals
  productions := fun a => if a ∈ s.goals then a.productions s.find? else []
  tokens := fun t cs => t.pattern.tokenLengths cs

/-- The grammar by look-up and the one by lists are the same. -/
theorem cfg_eq_listed : s.cfg = s.listed := by
  have hproductions : s.cfg.productions = s.listed.productions := funext productions_cfg
  exact congrArg (fun p => Cfg.mk s.goals p fun t cs => t.pattern.tokenLengths cs) hproductions

/-- A goal with productions is one of the rule set's. -/
theorem mem_goals_of_productions {a : Goal} (h : s.cfg.productions a ≠ []) : a ∈ s.goals := by
  by_contra hnot
  rw [productions_cfg, if_neg hnot] at h
  exact h rfl

/-- The productions of the rule set's goals. -/
theorem getElem_productions_iff {a : Goal} {q : Nat} {ps : List (Part Goal Terminal)} :
    (s.cfg.productions a)[q]? = some ps ↔
      a ∈ s.goals ∧ (a.productions s.find?)[q]? = some ps := by
  rw [productions_cfg]
  by_cases h : a ∈ s.goals
  · simp only [h, if_true, true_and]
  · simp [h]

/-- No token is longer than the text. -/
theorem tokens_cfg_le (x : Terminal) (cs : List Char) : ∀ n ∈ s.cfg.tokens x cs, n ≤ cs.length :=
  fun _ hn => (Pattern.match_take_of_mem_tokenLengths hn).1

/-- A symbol that some alternative of the set has. -/
def Occurs (s : RuleSet) (x : Symbol) : Prop :=
  ∃ r ∈ s.rules, ∃ a ∈ r.alternatives, x ∈ a

theorem occurs_of_find {name : String} {r : Rule} (hfind : s.find? name = some r) {q : Nat}
    {alternative : List Symbol} (hq : r.alternatives[q]? = some alternative) :
    ∀ x ∈ alternative, s.Occurs x :=
  fun _ hx => ⟨r, List.mem_of_find?_eq_some hfind, alternative, List.mem_of_getElem? hq, hx⟩

theorem rule_mem_goals {name : String} {r : Rule} (h : s.find? name = some r) :
    Goal.rule name ∈ s.goals := by
  refine List.mem_append_left _ (List.mem_map.mpr ⟨r, List.mem_of_find?_eq_some h, ?_⟩)
  rw [show r.name = name by simpa using List.find?_some h]

theorem mem_goals_of_occurs {x : Symbol} (h : s.Occurs x) {a : Goal} (ha : x.goal? = some a) :
    a ∈ s.goals := by
  obtain ⟨r, hr, alternative, halternative, hx⟩ := h
  refine List.mem_append_right _ (List.mem_eraseDups.mpr ?_)
  exact List.mem_flatMap.mpr ⟨r, hr, List.mem_filterMap.mpr
    ⟨x, List.mem_flatten.mpr ⟨alternative, halternative, hx⟩, ha⟩⟩

/-- **What the set has goals for**: the optional and repeated symbols that occur. -/
theorem exists_occurs_of_mem_goals {a : Goal} (h : a ∈ s.goals) :
    (∃ name, a = .rule name) ∨ ∃ x, s.Occurs x ∧ x.goal? = some a := by
  rcases List.mem_append.mp h with h | h
  · obtain ⟨r, _, rfl⟩ := List.mem_map.mp h
    exact .inl ⟨_, rfl⟩
  · obtain ⟨r, hr, hx⟩ := List.mem_flatMap.mp (List.mem_eraseDups.mp h)
    obtain ⟨x, hx, ha⟩ := List.mem_filterMap.mp hx
    obtain ⟨alternative, halternative, hx⟩ := List.mem_flatten.mp hx
    exact .inr ⟨x, ⟨r, hr, alternative, halternative, hx⟩, ha⟩

end RuleSet

namespace Symbol

variable {x : Symbol}

/-- **The symbols that are tokens**: literals and patterns that stand once. -/
theorem part_eq_token {u : Terminal} (h : x.part = .token u) :
    x.kind ≠ .rule ∧ x.cardinality = .one ∧ u = ⟨x.single, x.toPattern⟩ := by
  rcases x with ⟨kind, value, cardinality⟩
  cases cardinality <;> cases kind <;> simp_all [part, base]

/-- **The symbols that are goals**: rules, and optional and repeated symbols. -/
theorem part_eq_goal {a : Goal} (h : x.part = .goal a) :
    (x.kind = .rule ∧ x.cardinality = .one ∧ a = .rule x.value) ∨
      (x.cardinality = .optional ∧ a = .optional x.single) ∨
        (x.cardinality = .many ∧ a = .many x.single) := by
  rcases x with ⟨kind, value, cardinality⟩
  cases cardinality <;> cases kind <;> simp_all [part, base]

/-- The part of a symbol that stands once. -/
theorem part_single (x : Symbol) : x.single.part = x.base := rfl

theorem part_of_token (hkind : x.kind ≠ .rule) (hone : x.cardinality = .one) :
    x.part = .token ⟨x.single, x.toPattern⟩ := by
  rcases x with ⟨kind, value, cardinality⟩
  cases cardinality <;> cases kind <;> simp_all [part, base]

theorem part_of_rule (hkind : x.kind = .rule) (hone : x.cardinality = .one) :
    x.part = .goal (.rule x.value) := by
  rw [part, hone, base, hkind]

theorem part_of_optional (h : x.cardinality = .optional) : x.part = .goal (.optional x.single) := by
  rw [part, h]

theorem part_of_many (h : x.cardinality = .many) : x.part = .goal (.many x.single) := by
  rw [part, h]

end Symbol

namespace Goal

variable {rule? : String → Option Rule} {q : Nat} {ps : List (Part Goal Terminal)}

theorem getElem_rule_iff {name : String} : ((rule name).productions rule?)[q]? = some ps ↔
    ∃ r alternative, rule? name = some r ∧ r.alternatives[q]? = some alternative ∧
      ps = alternative.map Symbol.part := by
  rw [productions]
  cases rule? name with
  | none => simp
  | some r => simp [eq_comm]

/-- An optional symbol's goal has two productions. -/
theorem getElem_optional_iff {y : Symbol} : ((optional y).productions rule?)[q]? = some ps ↔
    (q = 0 ∧ ps = []) ∨ (q = 1 ∧ ps = [y.base]) := by
  rw [productions]
  match q with
  | 0 => simp [eq_comm]
  | 1 => simp [eq_comm]
  | q + 2 => simp

/-- A starred symbol's goal has two productions. -/
theorem getElem_many_iff {y : Symbol} : ((many y).productions rule?)[q]? = some ps ↔
    (q = 0 ∧ ps = []) ∨ (q = 1 ∧ ps = [.goal (.many y), y.base]) := by
  rw [productions]
  match q with
  | 0 => simp [eq_comm]
  | 1 => simp [eq_comm]
  | q + 2 => simp

end Goal

/-! ### Stretches of a text -/

def stretch (cs : List Char) (i k : Nat) : List Char :=
  (cs.drop i).take (k - i)

theorem stretch_self (cs : List Char) (i : Nat) : stretch cs i i = [] := by
  rw [stretch, Nat.sub_self, List.take_zero]

/-- Two stretches that meet make one. -/
theorem stretch_append (cs : List Char) {i j k : Nat} (hij : i ≤ j) (hjk : j ≤ k) :
    stretch cs i j ++ stretch cs j k = stretch cs i k := by
  have hdrop : cs.drop j = (cs.drop i).drop (j - i) := by rw [List.drop_drop, Nat.add_sub_cancel' hij]
  rw [stretch, stretch, stretch, hdrop, show k - i = (j - i) + (k - j) by omega, List.take_add]

theorem stretch_all (cs : List Char) : stretch cs 0 cs.length = cs := by
  rw [stretch, List.drop_zero, Nat.sub_zero, List.take_length]

/-! ### Trees stand for derivations -/

theorem Tree.derivations_append (ts us : List (Tree Goal)) :
    Tree.derivations (ts ++ us) = Tree.derivations ts ++ Tree.derivations us := by
  induction ts with
  | nil => rfl
  | cons t ts ih => rw [List.cons_append, Tree.derivations, Tree.derivations, ih, List.cons_append]

section

variable {s : RuleSet} {cs : List Char}

/-- The repetition that a tree stands for. -/
theorem derives_many_of_pieces {x : Symbol} (hmany : x.cardinality = .many) {u u' : List Char}
    {t t' : Tree Goal} (ht : Derives s x u t.derivation)
    (ht' : Derives s x.single u' t'.derivation) {y : Symbol} {q : Nat} {ts : List (Tree Goal)}
    (hnode : t = .node (.many y) q ts) :
    Derives s x (u ++ u') (.many (Tree.itemsOf [t, t'])) := by
  subst hnode
  obtain ⟨n, ds, hds, heq⟩ := (derives_many_iff hmany).mp ht
  obtain rfl : Tree.itemsOf ts = ds := by simpa [Tree.derivation] using heq
  refine (derives_many_iff hmany).mpr ⟨n + 1, _, ?_, rfl⟩
  rw [Tree.itemsOf, List.replicate_succ']
  exact derivesAll_append_iff.mpr ⟨_, _, _, _, rfl, rfl, hds,
    derivesAll_singleton_iff.mpr ⟨_, rfl, ht'⟩⟩

mutual

/-- **What a tree of a symbol stands for** is derived by the symbol. -/
theorem derives_of_isPiece {p : Part Goal Terminal} {i k : Nat} {t : Tree Goal}
    (h : s.cfg.IsPiece cs p i k t) (x : Symbol) (hp : x.part = p) :
    Derives s x (stretch cs i k) t.derivation :=
  match h with
  | @Cfg.IsPiece.leaf _ _ _ _ u i n hn => by
    obtain ⟨hkind, hone, rfl⟩ := Symbol.part_eq_token hp
    obtain ⟨hle, hmatch⟩ := Pattern.match_take_of_mem_tokenLengths hn
    rw [stretch, Nat.add_sub_cancel_left, Tree.derivation]
    refine .token hkind hone ?_
    rwa [Symbol.Accepts, List.length_take, Nat.min_eq_left hle]
  | @Cfg.IsPiece.node _ _ _ _ a q i k ps ts hq hts => by
    obtain ⟨_, hq⟩ := RuleSet.getElem_productions_iff.mp hq
    rcases Symbol.part_eq_goal hp with ⟨hkind, hone, rfl⟩ | ⟨hoptional, rfl⟩ | ⟨hmany, rfl⟩
    · -- a rule: one of its alternatives
      obtain ⟨r, alternative, hfind, halternative, rfl⟩ := Goal.getElem_rule_iff.mp hq
      exact .rule hkind hone hfind halternative (derivesAll_of_arePieces hts alternative rfl)
    · -- an optional symbol: nothing, or what it derives once
      rcases Goal.getElem_optional_iff.mp hq with ⟨_, rfl⟩ | ⟨_, rfl⟩
      · obtain ⟨rfl, rfl⟩ := Cfg.arePieces_nil_iff.mp hts
        rw [stretch_self]
        exact .absent hoptional
      · have hd := derivesAll_of_arePieces hts [x.single] rfl
        obtain ⟨j, t, ts, rfl, _, hnil⟩ := Cfg.arePieces_cons_iff.mp hts
        obtain ⟨_, rfl⟩ := Cfg.arePieces_nil_iff.mp hnil
        obtain ⟨d, heq, hd⟩ := derivesAll_singleton_iff.mp hd
        obtain rfl : t.derivation = d := (List.cons.inj heq).1
        exact .present hoptional hd
    · -- a repeated symbol: nothing, or a shorter repetition and once more
      rcases Goal.getElem_many_iff.mp hq with ⟨_, rfl⟩ | ⟨_, rfl⟩
      · obtain ⟨rfl, rfl⟩ := Cfg.arePieces_nil_iff.mp hts
        rw [stretch_self]
        exact .many hmany (n := 0) .nil
      · have hds := derivesAll_of_arePieces hts [x, x.single] (by rw [List.map_cons, hp]; rfl)
        obtain ⟨j, t, ts, rfl, ht, hrest⟩ := Cfg.arePieces_cons_iff.mp hts
        obtain ⟨_, t', ts, rfl, _, hnil⟩ := Cfg.arePieces_cons_iff.mp hrest
        obtain ⟨_, rfl⟩ := Cfg.arePieces_nil_iff.mp hnil
        obtain ⟨_, _, _, rfl, _⟩ := Cfg.isPiece_goal_iff.mp ht
        obtain ⟨u, u', d, ds, hu, heq, hd, hds⟩ := derivesAll_cons_iff.mp hds
        obtain ⟨d', rfl, hd'⟩ := derivesAll_singleton_iff.mp hds
        cases heq
        rw [hu]
        exact derives_many_of_pieces hmany hd hd' rfl

/-- What trees of symbols stand for is derived by them. -/
theorem derivesAll_of_arePieces {ps : List (Part Goal Terminal)} {i k : Nat} {ts : List (Tree Goal)}
    (h : s.cfg.ArePieces cs ps i k ts) (xs : List Symbol) (hps : xs.map Symbol.part = ps) :
    DerivesAll s xs (stretch cs i k) (Tree.derivations ts) :=
  match h with
  | .nil => by
    rw [List.map_eq_nil_iff] at hps
    rw [hps, stretch_self]
    exact .nil
  | @Cfg.ArePieces.cons _ _ _ _ p ps i j k t ts hp hrest => by
    obtain ⟨x, xs, rfl, hx, hxs⟩ := List.map_eq_cons_iff.mp hps
    rw [← stretch_append cs hp.le hrest.le]
    exact .cons (derives_of_isPiece hp x hx) (derivesAll_of_arePieces hrest xs hxs)

end

/-! ### Every derivation has a tree -/

/-- A symbol that the grammar has a goal for, and that is no token of the empty text. -/
structure RuleSet.Known (s : RuleSet) (x : Symbol) : Prop where
  goal : ∀ a, x.goal? = some a → a ∈ s.goals
  token : x.kind ≠ .rule → ¬ x.Accepts []

theorem RuleSet.Known.single {x : Symbol} (h : s.Known x) : s.Known x.single :=
  ⟨by simp [Symbol.goal?, Symbol.single], h.token⟩

/-- **A tree of a repeated symbol** from trees of what it repeats. -/
theorem exists_isPiece_many {x : Symbol} (hx : s.Known x) (hmany : x.cardinality = .many) {n : Nat}
    {i k : Nat} {ts : List (Tree Goal)}
    (h : s.cfg.ArePieces cs (List.replicate n x.base) i k ts) :
    ∃ t, s.cfg.IsPiece cs (.goal (.many x.single)) i k t ∧
      t.derivation = .many (Tree.derivations ts) := by
  have hgoal : Goal.many x.single ∈ s.goals := hx.goal _ (by rw [Symbol.goal?, hmany])
  induction n generalizing k ts with
  | zero =>
    obtain ⟨rfl, rfl⟩ := Cfg.arePieces_nil_iff.mp h
    refine ⟨.node (.many x.single) 0 [], .node ?_ .nil, rfl⟩
    exact RuleSet.getElem_productions_iff.mpr ⟨hgoal, Goal.getElem_many_iff.mpr (.inl ⟨rfl, rfl⟩)⟩
  | succ n ih =>
    rw [List.replicate_succ'] at h
    obtain ⟨m, ts, t, rfl, hts, ht⟩ := Cfg.arePieces_snoc_iff.mp h
    obtain ⟨u, hu, heq⟩ := ih hts
    obtain ⟨q, ps, us, rfl, _⟩ := Cfg.isPiece_goal_iff.mp hu
    refine ⟨.node (.many x.single) 1 [.node (.many x.single) q us, t],
      .node ?_ (.cons hu (.cons ht .nil)), ?_⟩
    · exact RuleSet.getElem_productions_iff.mpr ⟨hgoal, Goal.getElem_many_iff.mpr (.inr ⟨rfl, rfl⟩)⟩
    · have hitems : Tree.itemsOf us = Tree.derivations ts := by simpa [Tree.derivation] using heq
      rw [Tree.derivation, Tree.itemsOf, hitems, Tree.derivations_append]
      rfl

mutual

/-- **Every derivation is what a tree stands for.** -/
theorem exists_isPiece (hknown : ∀ x, s.Occurs x → s.Known x) {x : Symbol} {u : List Char}
    {d : Derivation} (h : Derives s x u d) (hx : s.Known x) {before after : List Char}
    (hcs : cs = before ++ u ++ after) :
    ∃ t, s.cfg.IsPiece cs x.part before.length (before.length + u.length) t ∧ t.derivation = d :=
  match h with
  | @Derives.token _ x u hkind hone haccepts => by
    have hdrop : cs.drop before.length = u ++ after := by
      rw [hcs, List.append_assoc, List.drop_left]
    have hlength : u.length ∈ s.cfg.tokens ⟨x.single, x.toPattern⟩ (cs.drop before.length) := by
      refine (Pattern.mem_tokenLengths_iff (hx.token hkind)).mpr ?_
      rw [hdrop, List.take_left]
      exact ⟨by simp, haccepts⟩
    rw [Symbol.part_of_token hkind hone]
    refine ⟨_, .leaf hlength, ?_⟩
    rw [hdrop, List.take_left]
    rfl
  | @Derives.rule _ x u r q alternative ds hkind hone hfind hq hds => by
    have hsymbols := fun y hy => hknown y (RuleSet.occurs_of_find hfind hq y hy)
    obtain ⟨ts, hts, rfl⟩ := exists_arePieces hknown hds hsymbols hcs
    rw [Symbol.part_of_rule hkind hone]
    refine ⟨_, .node ?_ hts, rfl⟩
    exact RuleSet.getElem_productions_iff.mpr ⟨RuleSet.rule_mem_goals hfind,
      Goal.getElem_rule_iff.mpr ⟨r, alternative, hfind, hq, rfl⟩⟩
  | @Derives.absent _ x hoptional => by
    rw [Symbol.part_of_optional hoptional]
    refine ⟨.node (.optional x.single) 0 [], .node ?_ .nil, rfl⟩
    exact RuleSet.getElem_productions_iff.mpr ⟨hx.goal _ (by rw [Symbol.goal?, hoptional]),
      Goal.getElem_optional_iff.mpr (.inl ⟨rfl, rfl⟩)⟩
  | @Derives.present _ x u d hoptional hd => by
    obtain ⟨t, ht, rfl⟩ := exists_isPiece hknown hd hx.single hcs
    rw [Symbol.part_of_optional hoptional]
    refine ⟨.node (.optional x.single) 1 [t], .node ?_ (.cons ht .nil), rfl⟩
    exact RuleSet.getElem_productions_iff.mpr ⟨hx.goal _ (by rw [Symbol.goal?, hoptional]),
      Goal.getElem_optional_iff.mpr (.inr ⟨rfl, rfl⟩)⟩
  | @Derives.many _ x n u ds hmany hds => by
    have hsingle : ∀ y ∈ List.replicate n x.single, s.Known y :=
      fun y hy => List.eq_of_mem_replicate hy ▸ hx.single
    obtain ⟨ts, hts, rfl⟩ := exists_arePieces hknown hds hsingle hcs
    rw [List.map_replicate] at hts
    rw [Symbol.part_of_many hmany]
    exact exists_isPiece_many hx hmany hts

/-- All derivations are what trees stand for. -/
theorem exists_arePieces (hknown : ∀ x, s.Occurs x → s.Known x) {xs : List Symbol} {u : List Char}
    {ds : List Derivation} (h : DerivesAll s xs u ds) (hxs : ∀ x ∈ xs, s.Known x)
    {before after : List Char} (hcs : cs = before ++ u ++ after) :
    ∃ ts, s.cfg.ArePieces cs (xs.map Symbol.part) before.length (before.length + u.length) ts ∧
      Tree.derivations ts = ds :=
  match h with
  | .nil => ⟨[], .nil, rfl⟩
  | @DerivesAll.cons _ x xs u u' d ds hd hds => by
    obtain ⟨hx, hxs⟩ := List.forall_mem_cons.mp hxs
    have hfirst : cs = before ++ u ++ (u' ++ after) := by simp [hcs]
    have hnext : cs = (before ++ u) ++ u' ++ after := by simp [hcs]
    obtain ⟨t, ht, rfl⟩ := exists_isPiece hknown hd hx hfirst
    obtain ⟨ts, hts, rfl⟩ := exists_arePieces hknown hds hxs hnext
    rw [List.length_append] at hts
    rw [List.length_append, ← Nat.add_assoc]
    exact ⟨t :: ts, .cons ht hts, rfl⟩

end

/-! ### One tree for each derivation -/

/-- What stands once is never absent. -/
theorem derivation_ne_absent {y : Symbol} {i k : Nat} {t : Tree Goal}
    (h : s.cfg.IsPiece cs y.base i k t) : t.derivation ≠ .absent := by
  cases hp : y.base with
  | token u =>
    rw [hp] at h
    obtain ⟨_, _, _, rfl⟩ := Cfg.isPiece_token_iff.mp h
    simp [Tree.derivation]
  | goal a =>
    rw [hp] at h
    obtain ⟨_, _, _, rfl, _⟩ := Cfg.isPiece_goal_iff.mp h
    rcases Symbol.part_eq_goal (y.part_single.trans hp) with ⟨_, _, rfl⟩ | ⟨h, _⟩ | ⟨h, _⟩
    · simp [Tree.derivation]
    · cases h
    · cases h

/-- What stands for an optional symbol is nothing, or a tree of the symbol. -/
theorem trees_of_optional {rule? : String → Option Rule} {y : Symbol} {q i k : Nat}
    {ps : List (Part Goal Terminal)} {ts : List (Tree Goal)}
    (hq : ((Goal.optional y).productions rule?)[q]? = some ps)
    (hts : s.cfg.ArePieces cs ps i k ts) :
    (q = 0 ∧ ts = []) ∨ (q = 1 ∧ ∃ t, ts = [t] ∧ t.derivation ≠ .absent) := by
  rcases Goal.getElem_optional_iff.mp hq with ⟨rfl, rfl⟩ | ⟨rfl, rfl⟩
  · exact .inl ⟨rfl, (Cfg.arePieces_nil_iff.mp hts).2⟩
  · obtain ⟨_, t, _, rfl, ht, hnil⟩ := Cfg.arePieces_cons_iff.mp hts
    obtain ⟨_, rfl⟩ := Cfg.arePieces_nil_iff.mp hnil
    exact .inr ⟨rfl, t, rfl, derivation_ne_absent ht⟩

/-- What stands for a repeated symbol is nothing, or what stands for all but the last and the
tree of this one. -/
theorem trees_of_many {rule? : String → Option Rule} {y : Symbol} {q i k : Nat}
    {ps : List (Part Goal Terminal)} {ts : List (Tree Goal)}
    (hq : ((Goal.many y).productions rule?)[q]? = some ps) (hts : s.cfg.ArePieces cs ps i k ts) :
    (q = 0 ∧ ts = []) ∨ (q = 1 ∧ ∃ q' us t, ts = [.node (.many y) q' us, t]) := by
  rcases Goal.getElem_many_iff.mp hq with ⟨rfl, rfl⟩ | ⟨rfl, rfl⟩
  · exact .inl ⟨rfl, (Cfg.arePieces_nil_iff.mp hts).2⟩
  · obtain ⟨_, u, _, rfl, hu, hrest⟩ := Cfg.arePieces_cons_iff.mp hts
    obtain ⟨_, t, _, rfl, _, hnil⟩ := Cfg.arePieces_cons_iff.mp hrest
    obtain ⟨_, rfl⟩ := Cfg.arePieces_nil_iff.mp hnil
    obtain ⟨q', _, us, rfl, _⟩ := Cfg.isPiece_goal_iff.mp hu
    exact .inr ⟨rfl, q', us, t, rfl⟩

/-- **A derivation tells the production** of its tree and the derivations of its parts. -/
theorem production_of_derivation {a : Goal} {q q' i k k' : Nat} {ps ps' : List (Part Goal Terminal)}
    {ts ts' : List (Tree Goal)} (hq : (s.cfg.productions a)[q]? = some ps)
    (hq' : (s.cfg.productions a)[q']? = some ps') (hts : s.cfg.ArePieces cs ps i k ts)
    (hts' : s.cfg.ArePieces cs ps' i k' ts')
    (heq : (Tree.node a q ts).derivation = (Tree.node a q' ts').derivation) :
    q = q' ∧ ps = ps' ∧ Tree.derivations ts = Tree.derivations ts' := by
  have hproduction : q = q' → ps = ps' := by
    rintro rfl
    exact Option.some.inj (hq.symm.trans hq')
  obtain ⟨_, hq⟩ := RuleSet.getElem_productions_iff.mp hq
  obtain ⟨_, hq'⟩ := RuleSet.getElem_productions_iff.mp hq'
  cases a with
  | rule name =>
    rw [Tree.derivation, Tree.derivation, Derivation.node.injEq] at heq
    exact ⟨heq.2.1, hproduction heq.2.1, heq.2.2⟩
  | optional y =>
    rcases trees_of_optional hq hts with ⟨rfl, rfl⟩ | ⟨rfl, t, rfl, ht⟩ <;>
      rcases trees_of_optional hq' hts' with ⟨rfl, rfl⟩ | ⟨rfl, t', rfl, ht'⟩
    · exact ⟨rfl, hproduction rfl, rfl⟩
    · exact absurd heq.symm ht'
    · exact absurd heq ht
    · exact ⟨rfl, hproduction rfl, congrArg (fun d => [d]) heq⟩
  | many y =>
    rw [Tree.derivation, Tree.derivation, Derivation.many.injEq] at heq
    rcases trees_of_many hq hts with ⟨rfl, rfl⟩ | ⟨rfl, _, us, t, rfl⟩ <;>
      rcases trees_of_many hq' hts' with ⟨rfl, rfl⟩ | ⟨rfl, _, us', t', rfl⟩
    · exact ⟨rfl, hproduction rfl, rfl⟩
    · simp [Tree.itemsOf] at heq
    · simp [Tree.itemsOf] at heq
    · rw [Tree.itemsOf, Tree.itemsOf] at heq
      obtain ⟨hitems, hlast⟩ := List.append_inj' heq rfl
      refine ⟨rfl, hproduction rfl, ?_⟩
      simp only [Tree.derivations, Tree.derivation, hitems, (List.cons.inj hlast).1]

mutual

/-- **Trees that stand for one derivation** are the same tree. -/
theorem isPiece_unique {p : Part Goal Terminal} {i k k' : Nat} {t t' : Tree Goal}
    (h : s.cfg.IsPiece cs p i k t) (h' : s.cfg.IsPiece cs p i k' t')
    (heq : t.derivation = t'.derivation) : t = t' :=
  match h with
  | @Cfg.IsPiece.leaf _ _ _ _ u i n hn => by
    obtain ⟨m, _, _, rfl⟩ := Cfg.isPiece_token_iff.mp h'
    rw [Tree.derivation, Tree.derivation, Derivation.token.injEq, String.ofList_inj] at heq
    rw [heq]
  | @Cfg.IsPiece.node _ _ _ _ a q i k ps ts hq hts => by
    obtain ⟨q', ps', ts', rfl, hq', hts'⟩ := Cfg.isPiece_goal_iff.mp h'
    obtain ⟨rfl, rfl, hparts⟩ := production_of_derivation hq hq' hts hts' heq
    rw [arePieces_unique hts hts' hparts]

/-- Trees that stand for the same derivations are the same trees. -/
theorem arePieces_unique {ps : List (Part Goal Terminal)} {i k k' : Nat} {ts ts' : List (Tree Goal)}
    (h : s.cfg.ArePieces cs ps i k ts) (h' : s.cfg.ArePieces cs ps i k' ts')
    (heq : Tree.derivations ts = Tree.derivations ts') : ts = ts' :=
  match h with
  | .nil => (Cfg.arePieces_nil_iff.mp h').2.symm
  | .cons hp hrest => by
    obtain ⟨j, t', ts', rfl, hp', hrest'⟩ := Cfg.arePieces_cons_iff.mp h'
    rw [Tree.derivations, Tree.derivations, List.cons.injEq] at heq
    obtain rfl := isPiece_unique hp hp' heq.1
    obtain rfl := hp.stop_eq RuleSet.tokens_cfg_le hp'
    rw [arePieces_unique hrest hrest' heq.2]

end

end

end Covenant
