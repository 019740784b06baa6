import Covenant.Markup.Reader
import Covenant.Proofs.Chart.Exhaustive
import Covenant.Proofs.Outcome
import Covenant.Proofs.Pattern.Matching

/-!
Reading template markup.

* `Token.length_le`: a token is no longer than the text.
* `not_leads`: no phrase leads back to itself without reading anything.
* `read_eq_ok_iff`: a text is read exactly when it has one tree as a level of nodes.
* `read_of_exhaust`: trying everything finds that tree.
* `read_plain`: a text without two opening braces in a row is read as itself.
-/

namespace Covenant.Markup

/-! ### Tokens -/

theorem textRun_le (cs : List Char) : textRun cs ≤ cs.length := by
  induction cs using textRun.induct <;> simp_all [textRun]

theorem expressionRun_le (cs : List Char) : expressionRun cs ≤ cs.length := by
  induction cs using expressionRun.induct <;> simp_all [expressionRun]

theorem stringRun_le {cs : List Char} {n : Nat} (h : stringRun? cs = some n) : n ≤ cs.length := by
  induction cs using stringRun?.induct generalizing n with
  | case1 => simp [stringRun?] at h
  | case2 cs => simp_all [stringRun?]
  | case3 cs => simp [stringRun?] at h
  | case4 c cs hc ih =>
    obtain ⟨m, hm, rfl⟩ : ∃ m, stringRun? cs = some m ∧ m + 2 = n := by
      simpa [stringRun?, hc] using h
    exact Nat.add_le_add_right (ih hm) 2
  | case5 => simp [stringRun?] at h
  | case6 c cs _ _ _ ih =>
    obtain ⟨m, hm, rfl⟩ : ∃ m, stringRun? cs = some m ∧ m + 1 = n := by
      simp_all [stringRun?]
    exact Nat.succ_le_succ (ih hm)

theorem nameRun_le (cs : List Char) : nameRun cs ≤ cs.length := by
  cases cs with
  | nil => exact Nat.le_refl _
  | cons c cs =>
    rw [nameRun]
    split
    · exact Nat.succ_le_succ (List.takeWhile_prefix _).length_le
    · exact Nat.zero_le _

/-- A mark at the start of a text. -/
theorem Token.exists_of_mark {m : Mark} {cs : List Char} (h : (Token.mark m).length cs ≠ 0) :
    ∃ rest, cs = m.text.toList ++ rest := by
  simp only [Token.length] at h
  cases hdrop : Text.dropStart? m.text.toList cs with
  | none => simp [hdrop] at h
  | some rest => exact ⟨rest, Pattern.dropStart_eq_some hdrop⟩

/-- **A token is no longer than the text** at whose start it stands. -/
theorem Token.length_le (t : Token) (cs : List Char) : t.length cs ≤ cs.length := by
  cases t with
  | text => exact textRun_le cs
  | name => exact nameRun_le cs
  | expression => exact expressionRun_le cs
  | blanks => exact (List.takeWhile_prefix _).length_le
  | mark m =>
    by_cases h : (Token.mark m).length cs = 0
    · omega
    · obtain ⟨rest, rfl⟩ := exists_of_mark h
      rw [List.length_append, String.length_toList, Token.length]
      split <;> omega
  | string =>
    unfold Token.length
    split <;> simp_all
    rename_i cs
    cases hrun : stringRun? cs with
    | none => simp
    | some n => simpa using stringRun_le hrun

/-! ### Trees -/

section

variable {cs : List Char} {i k : Nat} {t : Tree Phrase}

theorem tokens_ne_zero {x : Token} {s : List Char} {n : Nat} (h : n ∈ cfg.tokens x s) :
    n = x.length s ∧ n ≠ 0 := by
  unfold cfg at h
  simp only at h
  split at h
  · cases h
  · obtain rfl := List.mem_singleton.mp h
    exact ⟨rfl, ‹_›⟩

theorem tokens_le (x : Token) (s : List Char) : ∀ n ∈ cfg.tokens x s, n ≤ s.length :=
  fun _ h => (tokens_ne_zero h).1 ▸ x.length_le s

/-- A token reads something. -/
theorem not_vanishes_token (x : Token) : ¬ cfg.Vanishes (.token x) := by
  rintro ⟨cs, i, t, ht⟩
  obtain ⟨n, hn, hi, _⟩ := Cfg.isPiece_token_iff.mp ht
  exact (tokens_ne_zero hn).2 (by omega)

theorem mem_goals (p : Phrase) (_ : cfg.productions p ≠ []) : p ∈ cfg.goals := by
  change p ∈ Phrase.all
  cases p with
  | block k => cases k <;> decide
  | _ => decide

/-- Every phrase but a level reads a token or nothing at all. -/
theorem exists_token {p : Phrase} (hp : p ≠ .level) {ps : List (Part Phrase Token)}
    (hps : ps ∈ cfg.productions p) : ps = [] ∨ ∃ x, .token x ∈ ps := by
  change ps ∈ p.productions at hps
  cases p with
  | level => exact absurd rfl hp
  | gap | body =>
    rcases List.mem_pair.mp hps with rfl | rfl
    · exact .inl rfl
    · exact .inr ⟨_, List.mem_cons_self⟩
  | _ =>
    obtain rfl := List.mem_singleton.mp hps
    exact .inr ⟨_, List.mem_cons_self⟩

/-- A member of a level reads something. -/
theorem not_vanishes_member {p : Phrase} (hp : p ∈ Phrase.members) : ¬ cfg.Vanishes (.goal p) := by
  rintro ⟨cs, i, t, ht⟩
  obtain ⟨q, ps, ts, rfl, hq, hts⟩ := Cfg.isPiece_goal_iff.mp ht
  have hps : ps ∈ cfg.productions p := List.mem_of_getElem? hq
  have hne : ps ≠ [] := by
    rintro rfl
    revert hps hp
    clear hq hts ht
    cases p <;> simp [cfg, Phrase.productions, Phrase.members, Keyword.all, Phrase.opening]
  have hlevel : p ≠ .level := by
    rintro rfl
    revert hp
    decide
  obtain ⟨x, hx⟩ := (exists_token hlevel hps).resolve_left hne
  exact not_vanishes_token x (hts.vanishes _ hx)

/-- Only a level leads to a phrase without reading anything besides it, and not to a level. -/
theorem leads_level {p p' : Phrase} (h : cfg.Leads p p') : p = .level ∧ p' ∈ Phrase.members := by
  obtain ⟨ps, hps, before, after, rfl, hbeside⟩ := h
  obtain rfl : p = .level := by
    by_contra hp
    obtain ⟨x, hx⟩ := (exists_token hp hps).resolve_left (by simp)
    refine not_vanishes_token x (hbeside _ ?_)
    simpa using hx
  refine ⟨rfl, ?_⟩
  rcases List.mem_cons.mp hps with hnil | hps
  · simp at hnil
  · obtain ⟨m, hm, hparts⟩ := List.mem_map.mp hps
    cases before with
    | nil =>
      obtain ⟨_, rfl⟩ := List.cons.inj hparts
      exact absurd (hbeside (.goal m) (by simp)) (not_vanishes_member hm)
    | cons x before =>
      cases before with
      | nil => 
        cases hparts
        exact hm
      | cons y before => simp at hparts

/-- **No phrase leads back to itself** without reading anything. -/
theorem not_leads (p : Phrase) : ¬ Relation.TransGen cfg.Leads p p := by
  intro h
  obtain ⟨_, hfirst, _⟩ := Relation.TransGen.head'_iff.mp h
  obtain ⟨_, _, hlast⟩ := Relation.TransGen.tail'_iff.mp h
  obtain rfl := (leads_level hfirst).1
  have hmember : Phrase.level ∈ Phrase.members := (leads_level hlast).2
  revert hmember
  decide

/-- **A text is read exactly when it has one tree** as a level of nodes, and the strings in
it are ones. -/
theorem read_eq_ok_iff {text separator : String} {file : Option String} {level : List Node} :
    read text file separator = .ok level ↔
      ∃ t, (∀ t', cfg.IsPiece text.toList (.goal .level) 0 text.toList.length t' ↔ t' = t) ∧
        ∃ nodes, levelOf (Text.Position.of text.toList) separator t = .ok nodes ∧
          level = markLast nodes := by
  have hspec := Cfg.read_spec mem_goals tokens_le not_leads .level text.toList
  unfold read
  simp only
  cases hread : cfg.read .level text.toList with
  | none furthest expected =>
    rw [hread] at hspec
    constructor
    · intro h
      cases h
    · rintro ⟨t, ht, _⟩
      exact absurd ((ht t).mpr rfl) (hspec t)
  | several =>
    rw [hread] at hspec
    obtain ⟨t₁, t₂, hne, h₁, h₂⟩ := hspec
    constructor
    · intro h
      cases h
    · rintro ⟨t, ht, _⟩
      exact absurd (((ht t₁).mp h₁).trans ((ht t₂).mp h₂).symm) hne
  | one t =>
    rw [hread] at hspec
    simp only at hspec ⊢
    constructor
    · intro h
      refine ⟨t, hspec, ?_⟩
      cases hlevel : levelOf (Text.Position.of text.toList) separator t with
      | error f =>
        rw [hlevel] at h
        cases h
      | ok nodes =>
        rw [hlevel] at h
        exact ⟨nodes, rfl, (Except.ok.inj h).symm⟩
    · rintro ⟨t', ht', nodes, hlevel, rfl⟩
      obtain rfl := (hspec t').mp ((ht' t').mpr rfl)
      rw [hlevel]

/-- A text is read if trying everything finds one tree. -/
theorem read_of_exhaust {text separator : String} {fuel : Nat}
    (h : cfg.exhaust text.toList fuel (.goal .level) 0 text.toList.length = some [t])
    {nodes : List Node} (hlevel : levelOf (Text.Position.of text.toList) separator t = .ok nodes)
    (file : Option String) : read text file separator = .ok (markLast nodes) :=
  read_eq_ok_iff.mpr ⟨t, fun t' => by rw [← Cfg.mem_exhaust_iff h, List.mem_singleton], nodes,
    hlevel, rfl⟩

end

/-! ### Plain text -/

section

variable {cs : List Char} {i k : Nat} {t : Tree Phrase}

/-- The rest of plain text is plain. -/
theorem textRun_drop (h : textRun cs = cs.length) (i : Nat) :
    textRun (cs.drop i) = (cs.drop i).length := by
  induction i generalizing cs with
  | zero => exact h
  | succ i ih =>
    cases cs with
    | nil => rfl
    | cons c cs =>
      refine ih ?_
      unfold textRun at h
      split at h <;> simp_all

theorem isPiece_text_iff : cfg.IsPiece cs (.goal .text) i k t ↔
    textRun (cs.drop i) ≠ 0 ∧ k = i + textRun (cs.drop i) ∧
      t = .node .text 0 [.leaf i ((cs.drop i).take (textRun (cs.drop i)))] := by
  constructor
  · intro h
    obtain ⟨q, ps, ts, rfl, hq, hts⟩ := Cfg.isPiece_goal_iff.mp h
    obtain ⟨rfl, rfl⟩ : q = 0 ∧ ps = [.token .text] := by
      cases q with
      | zero => exact ⟨rfl, (Option.some.inj hq).symm⟩
      | succ q => cases hq
    obtain ⟨_, _, _, rfl, ht, hnil⟩ := Cfg.arePieces_cons_iff.mp hts
    obtain ⟨rfl, rfl⟩ := Cfg.arePieces_nil_iff.mp hnil
    obtain ⟨n, hn, rfl, rfl⟩ := Cfg.isPiece_token_iff.mp ht
    obtain ⟨rfl, hne⟩ := tokens_ne_zero hn
    exact ⟨hne, rfl, rfl⟩
  · rintro ⟨hne, rfl, rfl⟩
    exact .node (q := 0) rfl (.cons (.leaf (by simp [cfg, Token.length, hne])) .nil)

/-- Every part of a level but a text begins with two opening braces. -/
theorem exists_of_member {p : Phrase} (hp : p ∈ Phrase.members) (htext : p ≠ .text)
    (h : cfg.IsPiece cs (.goal p) i k t) :
    ∃ rest, cs.drop i = '{' :: '{' :: rest := by
  obtain ⟨q, ps, ts, rfl, hq, hts⟩ := Cfg.isPiece_goal_iff.mp h
  have hps : ps ∈ p.productions := List.mem_of_getElem? hq
  obtain ⟨m, _, hm, rfl⟩ : ∃ m qs, (∃ word, m.text.toList = '{' :: '{' :: word) ∧
      ps = Phrase.mark m :: qs := by
    cases p with
    | level | gap | body => exact absurd hp (by decide)
    | text => exact absurd rfl htext
    | block b =>
      obtain rfl := List.mem_singleton.mp hps
      exact ⟨.blockStart b, _, by cases b <;> exact ⟨_, rfl⟩, rfl⟩
    | _ =>
      obtain rfl := List.mem_singleton.mp hps
      exact ⟨_, _, ⟨_, rfl⟩, rfl⟩
  obtain ⟨j, t, ts, rfl, ht, _⟩ := Cfg.arePieces_cons_iff.mp hts
  obtain ⟨n, hn, _⟩ := Cfg.isPiece_token_iff.mp ht
  obtain ⟨rest, hrest⟩ := Token.exists_of_mark ((tokens_ne_zero hn).1 ▸ (tokens_ne_zero hn).2)
  obtain ⟨word, hword⟩ := hm
  exact ⟨_, hword ▸ hrest⟩

/-- **Plain text from a position on** is a level without nodes that reads nothing, or one
with one text that reads everything. -/
theorem isPiece_plain (hplain : textRun cs = cs.length)
    (h : cfg.IsPiece cs (.goal .level) i k t) :
    (i = k ∧ t = .node .level 0 []) ∨
      (i < cs.length ∧ k = cs.length ∧ t = .node .level 1
        [.node .level 0 [], .node .text 0 [.leaf i (cs.drop i)]]) := by
  induction hk : k using Nat.strong_induction_on generalizing k t with
  | h n ih =>
    subst hk
    obtain ⟨q, ps, ts, rfl, hq, hts⟩ := Cfg.isPiece_goal_iff.mp h
    cases q with
    | zero =>
      cases hq
      obtain ⟨rfl, rfl⟩ := Cfg.arePieces_nil_iff.mp hts
      exact .inl ⟨rfl, rfl⟩
    | succ q =>
      have hmap : (Phrase.members.map fun p => [.goal .level, .goal p])[q]? = some ps := hq
      rw [List.getElem?_map] at hmap
      obtain ⟨p, hp, rfl⟩ := Option.map_eq_some_iff.mp hmap
      obtain ⟨m, front, _, rfl, hfront, hrest⟩ := Cfg.arePieces_cons_iff.mp hts
      obtain ⟨_, last, _, rfl, hlast, hnil⟩ := Cfg.arePieces_cons_iff.mp hrest
      obtain ⟨rfl, rfl⟩ := Cfg.arePieces_nil_iff.mp hnil
      have htext : p = .text := by
        by_contra htext
        obtain ⟨rest, hrest⟩ := exists_of_member (List.mem_of_getElem? hp) htext hlast
        have hrun := textRun_drop hplain m
        rw [hrest] at hrun
        cases hrun
      subst htext
      have hfirst : ∀ q < Phrase.members.length, Phrase.members[q]? = some .text → q = 0 := by
        decide
      obtain rfl := hfirst q (List.getElem?_eq_some_iff.mp hp).1 hp
      obtain ⟨hne, hstop, rfl⟩ := isPiece_text_iff.mp hlast
      rw [textRun_drop hplain, List.length_drop] at hne hstop
      rcases ih m (by omega) hfront rfl with ⟨rfl, rfl⟩ | ⟨_, rfl, _⟩
      · refine .inr ⟨by omega, by omega, ?_⟩
        rw [textRun_drop hplain, List.take_length]
      · omega

end

/-- **Plain text is read as itself**: a text without two opening braces in a row is a level
with one text. -/
theorem read_plain {text : String} (hne : text ≠ "") (hplain : textRun text.toList = text.length)
    (file : Option String) (separator : String) :
    read text file separator
      = .ok [.text text true (Text.Position.of text.toList 0)] := by
  have hlength : textRun text.toList = text.toList.length := by
    rw [hplain, String.length_toList]
  have hpos : 0 < text.toList.length :=
    List.length_pos_of_ne_nil fun hnil => hne (String.toList_eq_nil_iff.mp hnil)
  refine read_eq_ok_iff.mpr ⟨.node .level 1 [.node .level 0 [], .node .text 0 [.leaf 0 text.toList]],
    fun t => ?_, [.text text false (Text.Position.of text.toList 0)], ?_, rfl⟩
  · constructor
    · intro h
      rcases isPiece_plain hlength h with ⟨h, _⟩ | ⟨_, _, rfl⟩
      · omega
      · rfl
    · rintro rfl
      refine .node (q := 1) rfl (.cons (.node (q := 0) rfl .nil) (.cons (isPiece_text_iff.mpr ?_) .nil))
      rw [List.drop_zero, hlength]
      exact ⟨by omega, by omega, by rw [List.take_length]⟩
  · simp [levelOf]

end Covenant.Markup
