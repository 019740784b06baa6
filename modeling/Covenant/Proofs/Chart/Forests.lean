import Covenant.Proofs.Chart.Saturation

/-!
Telling no tree, one tree and several apart.

* `Samples`: a list of different members of a set that holds all of them if it is shorter
  than what was asked for.
* `Chart.samples_trees`: the trees read off a closed chart are such a list.
* `Cfg.read_spec`: the verdict on a text says whether it has no tree, one or several.
-/

namespace Covenant

/-! ### Samples -/

/-- **Different members of a set**, and all of them unless there are as many as were asked
for. -/
structure Samples {α : Type} (cap : Nat) (P : α → Prop) (as : List α) : Prop where
  nodup : as.Nodup
  sound : ∀ a ∈ as, P a
  complete : as.length < cap → ∀ a, P a → a ∈ as

namespace Samples

variable {α β : Type} {cap : Nat} {P Q : α → Prop} {as : List α}

theorem congr (h : Samples cap P as) (hPQ : ∀ a, P a ↔ Q a) : Samples cap Q as :=
  ⟨h.nodup, fun a ha => (hPQ a).mp (h.sound a ha), fun hlt a ha => h.complete hlt a ((hPQ a).mpr ha)⟩

theorem take (h : Samples cap P as) : Samples cap P (as.take cap) := by
  refine ⟨h.nodup.sublist (List.take_sublist _ _), fun a ha => h.sound a (List.mem_of_mem_take ha),
    fun hlt a ha => ?_⟩
  rw [List.length_take] at hlt
  rw [List.take_of_length_le (by omega)]
  exact h.complete (by omega) a ha

theorem map {f : α → β} (hf : Function.Injective f) (h : Samples cap P as) :
    Samples cap (fun b => ∃ a, P a ∧ b = f a) (as.map f) := by
  refine ⟨h.nodup.map hf, fun b hb => ?_, fun hlt b hb => ?_⟩
  · obtain ⟨a, ha, rfl⟩ := List.mem_map.mp hb
    exact ⟨a, h.sound a ha, rfl⟩
  · obtain ⟨a, ha, rfl⟩ := hb
    rw [List.length_map] at hlt
    exact List.mem_map_of_mem (h.complete hlt a ha)

/-- **Samples of several sets** that have no member in common. -/
theorem collect {f : α → Nat → List β} {R : α → β → Prop} {cap : Nat}
    (hf : ∀ a ∈ as, ∀ cap, Samples cap (R a) (f a cap)) (hnodup : as.Nodup)
    (hdisjoint : ∀ a a' b, R a b → R a' b → a = a') :
    Samples cap (fun b => ∃ a ∈ as, R a b) (collect f cap as) := by
  induction as generalizing cap with
  | nil => exact ⟨List.nodup_nil, by simp [Covenant.collect], by simp⟩
  | cons a as ih =>
    have hfound := hf a (by simp) cap
    rw [List.nodup_cons] at hnodup
    rw [Covenant.collect]
    split
    · rename_i hle
      refine ⟨hfound.take.nodup, fun b hb => ⟨a, by simp, hfound.take.sound b hb⟩, fun hlt => ?_⟩
      rw [List.length_take] at hlt
      omega
    · rename_i hlt
      have hrest := @ih (cap - (f a cap).length) (fun a' ha' => hf a' (by simp [ha'])) hnodup.2
      refine ⟨List.nodup_append.mpr ⟨hfound.nodup, hrest.nodup, ?_⟩, fun b hb => ?_, fun hcap b hb => ?_⟩
      · rintro b hb b' hb' rfl
        obtain ⟨a', ha', hR⟩ := hrest.sound b hb'
        exact hnodup.1 (hdisjoint a a' b (hfound.sound b hb) hR ▸ ha')
      · rcases List.mem_append.mp hb with hb | hb
        · exact ⟨a, by simp, hfound.sound b hb⟩
        · obtain ⟨a', ha', hR⟩ := hrest.sound b hb
          exact ⟨a', by simp [ha'], hR⟩
      · rw [List.length_append] at hcap
        obtain ⟨a', ha', hR⟩ := hb
        rcases List.mem_cons.mp ha' with rfl | ha'
        · exact List.mem_append_left _ (hfound.complete (by omega) b hR)
        · exact List.mem_append_right _ (hrest.complete (by omega) b ⟨a', ha', hR⟩)

/-- **Samples of sequences** from samples of what they begin with and of what they end
with. -/
theorem snoc {P : List α → Prop} {fronts : List (List α)} {lasts : List α}
    (hfront : Samples cap P fronts) (hlast : Samples cap Q lasts) :
    Samples cap (fun us => ∃ ts t, us = ts ++ [t] ∧ P ts ∧ Q t)
      ((fronts.flatMap fun ts => lasts.map fun t => ts ++ [t]).take cap) := by
  have hlength : (fronts.flatMap fun ts => lasts.map fun t => ts ++ [t]).length =
      fronts.length * lasts.length := by
    simp [List.length_flatMap]
  refine take ⟨?_, fun us hus => ?_, fun hlt us hus => ?_⟩
  · rw [List.nodup_flatMap]
    refine ⟨fun ts _ => hlast.nodup.map fun t t' h => by simpa using h, ?_⟩
    refine hfront.nodup.imp fun {ts ts'} hne us hus hus' => hne ?_
    obtain ⟨t, _, rfl⟩ := List.mem_map.mp hus
    obtain ⟨t', _, heq⟩ := List.mem_map.mp hus'
    exact (List.append_inj' heq rfl).1.symm
  · obtain ⟨ts, hts, hus⟩ := List.mem_flatMap.mp hus
    obtain ⟨t, ht, rfl⟩ := List.mem_map.mp hus
    exact ⟨ts, t, rfl, hfront.sound ts hts, hlast.sound t ht⟩
  · obtain ⟨ts, t, rfl, hP, hQ⟩ := hus
    rw [hlength] at hlt
    -- there is a last one, and then there are fewer fronts than sequences
    have hlasts : 0 < lasts.length := by
      by_contra hnone
      have hmem := hlast.complete (by omega) t hQ
      exact hnone (List.length_pos_of_mem hmem)
    have hts := hfront.complete ((Nat.le_mul_of_pos_right _ hlasts).trans_lt hlt) ts hP
    have ht := hlast.complete
      ((Nat.le_mul_of_pos_left _ (List.length_pos_of_mem hts)).trans_lt hlt) t hQ
    exact List.mem_flatMap.mpr ⟨ts, hts, List.mem_map.mpr ⟨t, ht, rfl⟩⟩

end Samples

namespace Chart

variable {N T : Type} {g : Cfg N T} {cs : List Char}

/-- Samples of the trees of no parts: there is one, if they begin where they end. -/
theorem samples_nil (fuel start k cap : Nat) :
    Samples cap (fun ts => Cfg.ArePieces g cs [] start k ts ∧ Tree.heights ts ≤ fuel)
      (if start = k then [[]] else []) := by
  split
  · rename_i heq
    refine ⟨List.nodup_singleton _, fun ts hts => ?_, fun _ ts hts => ?_⟩
    · rw [List.mem_singleton.mp hts]
      exact ⟨Cfg.arePieces_nil_iff.mpr ⟨heq, rfl⟩, Nat.zero_le _⟩
    · rw [(Cfg.arePieces_nil_iff.mp hts.1).2]
      exact List.mem_singleton_self _
  · rename_i hne
    exact ⟨List.nodup_nil, by simp, fun _ ts hts => absurd (Cfg.arePieces_nil_iff.mp hts.1).1 hne⟩

variable [DecidableEq N] [Hashable N] {c : Chart N}

/-- The places at which the part after `dot` of a production may begin are those where
trees of the parts before it end. -/
theorem mem_joints {goal : N} {q dot start k m : Nat} {p : Part N T} :
    m ∈ c.joints g (suffixes cs) goal q dot start p k ↔
      (start ≤ m ∧ m ≤ k) ∧ (⟨goal, q, dot, start, m⟩ : Item N) ∈ c.seen ∧
        c.spans g (suffixes cs) p m k = true := by
  rw [joints, List.mem_filter, List.mem_range'_1, Bool.and_eq_true, Std.HashSet.contains_iff_mem]
  have hrange : (start ≤ m ∧ m < start + (k + 1 - start)) ↔ start ≤ m ∧ m ≤ k := by omega
  rw [hrange]

/-- A closed chart knows that a part that has been begun spans its trees. -/
theorem spans_of_isPiece (hc : Closed g cs c) {p : Part N T} {m k : Nat} {t : Tree N}
    (ht : Cfg.IsPiece g cs p m k t) (hbegin : ∀ n, p = .goal n → ∀ y ∈ g.begin n m, y ∈ c.seen) :
    c.spans g (suffixes cs) p m k = true := by
  cases p with
  | token x =>
    obtain ⟨n, hn, rfl, _⟩ := Cfg.isPiece_token_iff.mp ht
    rw [spans, getD_suffixes, Nat.add_sub_cancel_left]
    exact List.contains_iff_mem.mpr hn
  | goal n =>
    rw [spans]
    exact List.contains_iff_mem.mpr (hc.ended_of_isPiece ht n rfl (hbegin n rfl))

/-- Samples of the trees of one part. -/
theorem samples_last {fuel cap : Nat} {sub : N → Nat → Nat → Nat → List (Tree N)}
    (hsub : ∀ n m k cap, (∀ y ∈ g.begin n m, y ∈ c.seen) → Samples cap
      (fun t => Cfg.IsPiece g cs (.goal n) m k t ∧ t.height ≤ fuel) (sub n m k cap))
    (p : Part N T) {m k : Nat} (hmk : m ≤ k) :
    (∀ n, p = .goal n → ∀ y ∈ g.begin n m, y ∈ c.seen) →
    c.spans g (suffixes cs) p m k = true → Samples cap (fun t => Cfg.IsPiece g cs p m k t ∧ t.height ≤ fuel)
      (match p with
        | .token _ => [Tree.leaf m (((suffixes cs).getD m []).take (k - m))]
        | .goal n => sub n m k cap) := by
  intro hbegin hspans
  cases p with
  | goal n => exact hsub n m k cap (hbegin n rfl)
  | token x =>
    rw [spans, getD_suffixes, List.contains_iff_mem] at hspans
    rw [getD_suffixes]
    refine ⟨List.nodup_singleton _, fun t ht => ?_, fun _ t ht => ?_⟩
    · rw [List.mem_singleton.mp ht]
      exact ⟨Cfg.isPiece_token_iff.mpr ⟨k - m, hspans, by omega, rfl⟩, Nat.zero_le _⟩
    · obtain ⟨n, _, rfl, rfl⟩ := Cfg.isPiece_token_iff.mp ht.1
      rw [Nat.add_sub_cancel_left]
      exact List.mem_singleton_self _

/-- **Samples of the trees of a beginning of a production** whose item has been seen. -/
theorem samples_forests (hc : Closed g cs c)
    (hbounded : ∀ t s, ∀ n ∈ g.tokens t s, n ≤ s.length) {fuel : Nat}
    {sub : N → Nat → Nat → Nat → List (Tree N)}
    (hsub : ∀ n m k cap, (∀ y ∈ g.begin n m, y ∈ c.seen) → Samples cap
      (fun t => Cfg.IsPiece g cs (.goal n) m k t ∧ t.height ≤ fuel) (sub n m k cap))
    {goal : N} {q start : Nat} (hstart : (⟨goal, q, 0, start, start⟩ : Item N) ∈ c.seen)
    {dot : Nat} (hdot : dot ≤ (g.parts goal q).length) (k cap : Nat) :
    Samples cap (fun ts => Cfg.ArePieces g cs ((g.parts goal q).take dot) start k ts ∧
      Tree.heights ts ≤ fuel) (c.forests g (suffixes cs) sub goal q start dot k cap) := by
  induction dot generalizing k cap with
  | zero => exact samples_nil fuel start k cap
  | succ dot ih =>
    obtain ⟨p, hp⟩ : ∃ p, (g.parts goal q)[dot]? = some p :=
      ⟨_, List.getElem?_eq_getElem (Nat.lt_of_succ_le hdot)⟩
    have hnext : ∀ m, g.next? (⟨goal, q, dot, start, m⟩ : Item N) = some p := fun _ => hp
    have htake : (g.parts goal q).take (dot + 1) = (g.parts goal q).take dot ++ [p] := by
      rw [List.take_add_one, hp]
      rfl
    have hfronts := ih (Nat.le_of_succ_le hdot)
    rw [forests, hp]
    refine Samples.congr (P := fun us => ∃ m ∈ c.joints g (suffixes cs) goal q dot start p k,
      ∃ ts t, us = ts ++ [t] ∧
        (Cfg.ArePieces g cs ((g.parts goal q).take dot) start m ts ∧ Tree.heights ts ≤ fuel) ∧
        (Cfg.IsPiece g cs p m k t ∧ t.height ≤ fuel))
      (Samples.collect (fun m hm cap => ?_) ?_ ?_) fun us => ?_
    · -- the trees that part at `m`
      obtain ⟨⟨_, hmk⟩, hitem, hspans⟩ := mem_joints.mp hm
      refine (hfronts m cap).snoc (samples_last hsub p hmk (fun n hn => ?_) hspans)
      exact hc.predict _ hitem n (hn ▸ hnext m)
    · exact (List.nodup_range' ..).sublist List.filter_sublist
    · rintro m m' us ⟨ts, t, rfl, ⟨hts, _⟩, _⟩ ⟨ts', t', heq, ⟨hts', _⟩, _⟩
      obtain ⟨rfl, _⟩ := List.append_inj' heq rfl
      exact hts.stop_eq hbounded hts'
    · rw [htake, Cfg.arePieces_snoc_iff]
      constructor
      · rintro ⟨m, _, ts, t, rfl, ⟨hts, hheights⟩, ht, hheight⟩
        refine ⟨⟨m, ts, t, rfl, hts, ht⟩, Tree.heights_le_iff.mpr ?_⟩
        rw [List.forall_mem_append, List.forall_mem_singleton]
        exact ⟨Tree.heights_le_iff.mp hheights, hheight⟩
      · rintro ⟨⟨m, ts, t, rfl, hts, ht⟩, hheights⟩
        rw [Tree.heights_le_iff, List.forall_mem_append, List.forall_mem_singleton] at hheights
        have hitem : (⟨goal, q, dot, start, m⟩ : Item N) ∈ c.seen := by
          have hseen := hc.seen_of_arePieces hts _ hstart rfl (List.take_append_drop _ _).symm
          simpa [Nat.min_eq_left (Nat.le_of_succ_le hdot)] using hseen
        refine ⟨m, mem_joints.mpr ⟨⟨hts.le, ht.le⟩, hitem, ?_⟩, ts, t, rfl,
          ⟨hts, Tree.heights_le_iff.mpr hheights.1⟩, ht, hheights.2⟩
        exact spans_of_isPiece hc ht fun n hn => hc.predict _ hitem n (hn ▸ hnext m)

/-- **Samples of the trees of a goal** that has been begun. -/
theorem samples_trees (hc : Closed g cs c)
    (hbounded : ∀ t s, ∀ n ∈ g.tokens t s, n ≤ s.length) (fuel : Nat) (goal : N) (i k cap : Nat)
    (hbegin : ∀ y ∈ g.begin goal i, y ∈ c.seen) : Samples cap
      (fun t => Cfg.IsPiece g cs (.goal goal) i k t ∧ t.height ≤ fuel)
      (c.trees g (suffixes cs) fuel goal i k cap) := by
  induction fuel generalizing goal i k cap with
  | zero =>
    refine ⟨List.nodup_nil, by simp [trees], fun _ t ht => ?_⟩
    obtain ⟨q, ps, ts, rfl, _⟩ := Cfg.isPiece_goal_iff.mp ht.1
    simp [Tree.height] at ht
  | succ fuel ih =>
    rw [trees]
    refine Samples.congr (P := fun t => ∃ q ∈ List.range (g.productions goal).length, ∃ ts,
      (Cfg.ArePieces g cs ((g.parts goal q).take (g.parts goal q).length) i k ts ∧
        Tree.heights ts ≤ fuel) ∧ t = Tree.node goal q ts)
      (Samples.collect (fun q hq cap => ?_) List.nodup_range ?_) fun t => ?_
    · refine (samples_forests hc hbounded ih ?_ (Nat.le_refl _) k cap).map fun ts ts' h => ?_
      · exact hbegin _ (List.mem_map.mpr ⟨q, hq, rfl⟩)
      · cases h
        rfl
    · rintro q q' t ⟨ts, _, rfl⟩ ⟨ts', _, h⟩
      cases h
      rfl
    · rw [Cfg.isPiece_goal_iff]
      constructor
      · rintro ⟨q, hq, ts, ⟨hts, hheights⟩, rfl⟩
        obtain ⟨ps, hps⟩ : ∃ ps, (g.productions goal)[q]? = some ps :=
          ⟨_, List.getElem?_eq_getElem (List.mem_range.mp hq)⟩
        rw [List.take_length, Cfg.parts, hps, Option.getD_some] at hts
        exact ⟨⟨q, ps, ts, rfl, hps, hts⟩, Nat.succ_le_succ hheights⟩
      · rintro ⟨⟨q, ps, ts, rfl, hps, hts⟩, hheight⟩
        refine ⟨q, List.mem_range.mpr (List.getElem?_eq_some_iff.mp hps).1, ts, ⟨?_, ?_⟩, rfl⟩
        · rwa [List.take_length, Cfg.parts, hps, Option.getD_some]
        · exact Nat.le_of_succ_le_succ hheight

end Chart

/-! ### Verdicts -/

namespace Cfg

variable {N T : Type} {g : Cfg N T} {start : N} {cs : List Char}

/-- A tree of a text that is no higher than trees are looked for. -/
def HasLow (g : Cfg N T) (start : N) (cs : List Char) (t : Tree N) : Prop :=
  g.IsPiece cs (.goal start) 0 cs.length t ∧ t.height ≤ g.depth cs.length

variable [DecidableEq N] [Hashable N]

/-- The verdict on a text is about the trees that are looked for. -/
theorem read_low (hgoals : ∀ a, g.productions a ≠ [] → a ∈ g.goals)
    (hbounded : ∀ t s, ∀ n ∈ g.tokens t s, n ≤ s.length) (start : N) (cs : List Char) :
    match g.read start cs with
    | .none _ _ => ∀ t, ¬ g.HasLow start cs t
    | .one t => ∀ t', g.HasLow start cs t' ↔ t' = t
    | .several => ∃ t t', t ≠ t' ∧ g.HasLow start cs t ∧ g.HasLow start cs t' := by
  have hchart : Chart.Closed g cs (Chart.saturate g start cs) ∧ _ :=
    Chart.closed_saturate hgoals hbounded start
  obtain ⟨hclosed, hbegin⟩ := hchart
  have hsamples : Samples 2 (g.HasLow start cs) _ :=
    Chart.samples_trees hclosed hbounded (g.depth cs.length) start 0 cs.length 2 hbegin
  unfold read
  simp only
  generalize (Chart.saturate g start cs).trees g (suffixes cs) (g.depth cs.length) start 0
    cs.length 2 = ts at hsamples
  match ts, hsamples with
  | [], hsamples => exact fun t ht => List.not_mem_nil (hsamples.complete (by simp) t ht)
  | [t], hsamples =>
    intro t'
    constructor
    · exact fun ht' => List.mem_singleton.mp (hsamples.complete (by simp) t' ht')
    · rintro rfl
      exact hsamples.sound t' (List.mem_singleton_self _)
  | t :: t' :: ts, hsamples =>
    have hne : t ≠ t' := by
      rintro rfl
      exact (List.nodup_cons.mp hsamples.nodup).1 (by simp)
    exact ⟨t, t', hne, hsamples.sound t (by simp), hsamples.sound t' (by simp)⟩

/-- The tree of a text that has one is a tree of the text, whatever the grammar. -/
theorem isPiece_of_read (hgoals : ∀ a, g.productions a ≠ [] → a ∈ g.goals)
    (hbounded : ∀ t s, ∀ n ∈ g.tokens t s, n ≤ s.length) {t : Tree N}
    (h : g.read start cs = .one t) : g.IsPiece cs (.goal start) 0 cs.length t := by
  have hlow := read_low hgoals hbounded start cs
  rw [h] at hlow
  exact ((hlow t).mpr rfl).1

/-- **The verdict on a text** says whether it has no tree, one or several. -/
theorem read_spec (hgoals : ∀ a, g.productions a ≠ [] → a ∈ g.goals)
    (hbounded : ∀ t s, ∀ n ∈ g.tokens t s, n ≤ s.length)
    (hleads : ∀ a, ¬ Relation.TransGen g.Leads a a) (start : N) (cs : List Char) :
    match g.read start cs with
    | .none _ _ => ∀ t, ¬ g.IsPiece cs (.goal start) 0 cs.length t
    | .one t => ∀ t', g.IsPiece cs (.goal start) 0 cs.length t' ↔ t' = t
    | .several => ∃ t t', t ≠ t' ∧ g.IsPiece cs (.goal start) 0 cs.length t ∧
        g.IsPiece cs (.goal start) 0 cs.length t' := by
  have hall : ∀ t, g.HasLow start cs t ↔ g.IsPiece cs (.goal start) 0 cs.length t := fun t =>
    ⟨fun ht => ht.1, fun ht => ⟨ht, (height_lt_depth hgoals hleads ht).le⟩⟩
  simpa only [hall] using read_low hgoals hbounded start cs

end Cfg

end Covenant
