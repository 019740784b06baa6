import Covenant.Proofs.Markup.Members

/-!
The markup of templates is unambiguous.

* `startOf_of_isPiece`: the first characters of a member tell the mark that it starts with.
* `pieces_unique`: parts of which every open one is closed by what follows have one list of
  trees at most.
* `sole`: no two members start at the same position.
* `tree_unique`: a text has one tree at most as a level of nodes.
* `read_error_cases`: why a text is refused.
* `read_of_isPiece`: a text is read by any tree of it.
* `read_ne_ambiguous`: no text is refused as ambiguous.
-/

namespace Covenant.Markup

/-! ### Starts -/

def Phrase.start? : Phrase → Option Mark
  | .binding | .formatted => some .opening
  | .shown | .choice => some .ifStart
  | .block k => some (.blockStart k)
  | .separated => some (.blockStart .join)
  | .expression => some .expressionStart
  | .level | .text | .gap | .body => none

/-- The marks in double braces, with the braces themselves at the end. -/
def Mark.leading : List Mark :=
  .ifStart :: .expressionStart :: Keyword.all.flatMap (fun k => [.blockStart k, .blockEnd k])
    ++ [.opening]

def startOf (cs : List Char) : Option Mark :=
  Mark.leading.find? fun m => m.text.toList.isPrefixOf cs

section

variable {cs rest : List Char}

theorem startOf_of_textRun (h : textRun cs ≠ 0) : startOf cs = none := by
  have hbraces : ∀ m ∈ Mark.leading, ['{', '{'] <+: m.text.toList := by decide +kernel
  refine List.find?_eq_none.mpr fun m hm hstart => h ?_
  obtain ⟨rest, rfl⟩ := (hbraces m hm).trans (List.isPrefixOf_iff_prefix.mp hstart)
  rfl

theorem startOf_mark {m : Mark} (hm : m ∈ Mark.leading.dropLast) :
    startOf (m.text.toList ++ rest) = some m := by
  have hleading : Mark.leading.dropLast = .ifStart :: .expressionStart ::
      Keyword.all.flatMap (fun k => [.blockStart k, .blockEnd k]) := by decide
  rw [hleading] at hm
  cases m with
  | blockStart k | blockEnd k => cases k <;> rfl
  | ifStart | expressionStart => rfl
  | _ => exact absurd hm (by decide)

/-- The first character of a name. -/
theorem exists_of_nameRun (h : nameRun cs ≠ 0) :
    ∃ c rest, cs = c :: rest ∧ (c.isAlpha || c == '_') = true := by
  cases cs with
  | nil => exact absurd rfl h
  | cons c cs =>
    rw [nameRun] at h
    split at h
    · exact ⟨c, cs, rfl, ‹_›⟩
    · exact absurd rfl h

/-- The first character of blanks. -/
theorem exists_of_blanks (h : Token.blanks.length cs ≠ 0) :
    ∃ c rest, cs = c :: rest ∧ (c == ' ' || c == '\t') = true := by
  cases cs with
  | nil => exact absurd rfl h
  | cons c cs =>
    refine ⟨c, cs, rfl, ?_⟩
    by_contra hc
    refine h ?_
    rw [Token.length, List.takeWhile_cons, if_neg hc]
    rfl

theorem startOf_opening {c : Char} (h : c ≠ '#' ∧ c ≠ '%' ∧ c ≠ '/') :
    startOf ('{' :: '{' :: c :: rest) = some .opening := by
  obtain ⟨hblock, hexpression, hend⟩ := h
  have hother : ∀ m ∈ Mark.leading.dropLast,
      m.text.toList[2]? ∈ [some '#', some '%', some '/'] := by decide +kernel
  have hsplit : Mark.leading = Mark.leading.dropLast ++ [.opening] := by decide
  rw [startOf, hsplit, List.find?_append, List.find?_eq_none.mpr, Option.none_or]
  · rfl
  · intro m hm hstart
    have hthird := hother m hm
    obtain ⟨word, heq⟩ := List.isPrefixOf_iff_prefix.mp hstart
    cases hc : m.text.toList[2]? with
    | none => simp [hc] at hthird
    | some d =>
      obtain rfl : c = d := by
        have hget := congrArg (·[2]?) heq
        simp only [List.getElem?_append_left (List.getElem?_eq_some_iff.mp hc).1, hc] at hget
        exact (Option.some.inj hget).symm
      simp [hc, hblock, hexpression, hend] at hthird

end

section

variable {cs : List Char} {i j k k' : Nat} {t t' u : Tree Phrase} {ts ts' : List (Tree Phrase)}
  {p p' : Phrase} {ps ps' : List (Part Phrase Token)}

/-- The third character of a field in double braces. -/
theorem exists_of_gap_name (h : cfg.ArePieces cs (.goal .gap :: .token .name :: ps) i k ts) :
    ∃ c rest, cs.drop i = c :: rest ∧ c ≠ '#' ∧ c ≠ '%' ∧ c ≠ '/' := by
  obtain ⟨j, gap, us, rfl, hgap, h⟩ := Cfg.arePieces_cons_iff.mp h
  obtain ⟨_, name, _, rfl, hname, -⟩ := Cfg.arePieces_cons_iff.mp h
  obtain ⟨q, qs, us, rfl, hq, hpieces⟩ := Cfg.isPiece_goal_iff.mp hgap
  have hqs : qs ∈ Phrase.gap.productions := List.mem_of_getElem? hq
  rcases List.mem_pair.mp hqs with rfl | rfl
  · obtain ⟨rfl, rfl⟩ := Cfg.arePieces_nil_iff.mp hpieces
    obtain ⟨-, hne, -⟩ := exists_leaf hname
    obtain ⟨c, rest, hcs, hc⟩ := exists_of_nameRun hne
    exact ⟨c, rest, hcs, by rintro rfl; exact absurd hc (by decide),
      by rintro rfl; exact absurd hc (by decide), by rintro rfl; exact absurd hc (by decide)⟩
  · obtain ⟨_, blanks, _, rfl, hblanks, -⟩ := Cfg.arePieces_cons_iff.mp hpieces
    obtain ⟨-, hne, -⟩ := exists_leaf hblanks
    obtain ⟨c, rest, hcs, hc⟩ := exists_of_blanks hne
    exact ⟨c, rest, hcs, by rintro rfl; exact absurd hc (by decide),
      by rintro rfl; exact absurd hc (by decide), by rintro rfl; exact absurd hc (by decide)⟩

/-- **The first characters of a member** tell the mark that it starts with. -/
theorem startOf_of_isPiece (hp : p ∈ Phrase.members) (h : cfg.IsPiece cs (.goal p) i k u) :
    startOf (cs.drop i) = p.start? := by
  obtain ⟨q, ps, ts, rfl, hq, hts⟩ := Cfg.isPiece_goal_iff.mp h
  have hps : ps ∈ p.productions := List.mem_of_getElem? hq
  simp only [Phrase.productions, Phrase.opening, List.cons_append, List.nil_append] at hps
  cases p with
  | level | gap | body => exact absurd hp (by decide)
  | text =>
    obtain rfl := List.mem_singleton.mp hps
    obtain ⟨_, _, _, rfl, htext, -⟩ := Cfg.arePieces_cons_iff.mp hts
    obtain ⟨-, hne, -⟩ := exists_leaf htext
    exact startOf_of_textRun hne
  | binding | formatted =>
    obtain rfl := List.mem_singleton.mp hps
    obtain ⟨_, _, _, rfl, hmark, hrest⟩ := Cfg.arePieces_cons_iff.mp hts
    obtain ⟨rest, hdrop, rfl, -⟩ := drop_of_mark hmark
    obtain ⟨c, rest, hcs, hc⟩ := exists_of_gap_name hrest
    rw [hdrop, hcs]
    exact startOf_opening hc
  | shown | choice | separated | expression =>
    obtain rfl := List.mem_singleton.mp hps
    obtain ⟨_, _, _, rfl, hmark, -⟩ := Cfg.arePieces_cons_iff.mp hts
    obtain ⟨rest, hdrop, -⟩ := drop_of_mark hmark
    rw [hdrop]
    exact startOf_mark (by decide)
  | block b =>
    obtain rfl := List.mem_singleton.mp hps
    obtain ⟨_, _, _, rfl, hmark, -⟩ := Cfg.arePieces_cons_iff.mp hts
    obtain ⟨rest, hdrop, -⟩ := drop_of_mark hmark
    rw [hdrop]
    exact startOf_mark (by cases b <;> decide)

/-! ### Ends -/

/-- **An open phrase is closed** at a position: blanks and texts cannot go on there, and no
member of a level starts there. -/
def Closes (cs : List Char) (j : Nat) : Phrase → Prop
  | .gap => Token.blanks.length (cs.drop j) = 0
  | .body => textRun (cs.drop j) = 0
  | .level => ∀ p ∈ Phrase.members, ∀ k u, ¬ cfg.IsPiece cs (.goal p) j k u
  | _ => True

/-- Whether a token closes the phrase in front of it. -/
def Token.closes : Token → Phrase → Bool
  | .name, .gap | .string, .gap | .mark .closing, .gap | .mark .equal, .gap => true
  | .mark .ifEnd, .body | .mark .otherwise, .body => true
  | .mark (.blockEnd _), .level => true
  | _, _ => false

/-- Whether every phrase in a list of parts is closed by a token. -/
def settled : List (Part Phrase Token) → Bool
  | [] => true
  | .token _ :: ps => settled ps
  | .goal p :: .token x :: ps => x.closes p && settled ps
  | .goal _ :: _ => false

theorem blanks_eq_zero {c : Char} {rest : List Char} (hc : (c == ' ' || c == '\t') = false) :
    Token.blanks.length (c :: rest) = 0 := by
  rw [Token.length, List.takeWhile_cons_of_neg (by simp [hc])]
  rfl

theorem closes_of_isPiece {x : Token} (hx : x.closes p = true)
    (h : cfg.IsPiece cs (.token x) j k t) : Closes cs j p := by
  unfold Token.closes at hx
  split at hx
  · obtain ⟨-, hne, -⟩ := exists_leaf h
    obtain ⟨c, rest, hcs, hc⟩ := exists_of_nameRun hne
    rw [Closes, hcs]
    refine blanks_eq_zero ?_
    by_contra hblank
    rw [Bool.not_eq_false, Bool.or_eq_true, beq_iff_eq, beq_iff_eq] at hblank
    rcases hblank with rfl | rfl <;> exact absurd hc (by decide)
  · obtain ⟨-, hne, -⟩ := exists_leaf h
    unfold Token.length at hne
    split at hne <;> simp_all [Closes, blanks_eq_zero]
  · obtain ⟨rest, hrest, -⟩ := drop_of_mark h
    rw [Closes, hrest]
    rfl
  · obtain ⟨rest, hrest, -⟩ := drop_of_mark h
    rw [Closes, hrest]
    rfl
  · obtain ⟨rest, hrest, -⟩ := drop_of_mark h
    rw [Closes, hrest]
    rfl
  · obtain ⟨rest, hrest, -⟩ := drop_of_mark h
    rw [Closes, hrest]
    rfl
  · rename_i b
    intro p hp k u hu
    obtain ⟨rest, hrest, -⟩ := drop_of_mark h
    have hstart := startOf_of_isPiece hp hu
    rw [hrest, startOf_mark (by cases b <;> decide)] at hstart
    cases p <;> cases hstart
  · cases hx

/-- Nothing starts behind a text. -/
theorem closes_level_of_le (h : cs.length ≤ j) : Closes cs j .level := by
  intro p hp k u hu
  have hstart := startOf_of_isPiece hp hu
  rw [List.drop_eq_nil_of_le h] at hstart
  have hnone : p.start? = none := hstart.symm
  cases p with
  | text =>
    have htext := (isPiece_text_iff.mp hu).1
    rw [List.drop_eq_nil_of_le h] at htext
    exact htext rfl
  | level | gap | body => exact absurd hp (by decide)
  | _ => cases hnone

/-! ### At most one tree -/

/-- **One member at most** starts at a position. -/
def Sole (cs : List Char) (i : Nat) : Prop :=
  ∀ ⦃p p' : Phrase⦄ ⦃k k' : Nat⦄ ⦃u u' : Tree Phrase⦄, p ∈ Phrase.members → p' ∈ Phrase.members →
    cfg.IsPiece cs (.goal p) i k u → cfg.IsPiece cs (.goal p') i k' u' → k = k' ∧ u = u'

theorem token_unique {x : Token} (h : cfg.IsPiece cs (.token x) i k t)
    (h' : cfg.IsPiece cs (.token x) i k' t') : k = k' ∧ t = t' := by
  obtain ⟨rfl, -, rfl⟩ := exists_leaf h
  obtain ⟨rfl, -, rfl⟩ := exists_leaf h'
  exact ⟨rfl, rfl⟩

/-- Members that follow each other up to where none starts. -/
theorem chain_unique {us vs : List (Tree Phrase)} (hsole : ∀ m, i ≤ m → Sole cs m)
    (hus : Chain cs i k us) (hvs : Chain cs i k' vs) (hk : Closes cs k .level)
    (hk' : Closes cs k' .level) : k = k' ∧ us = vs := by
  induction hus generalizing vs with
  | nil =>
    cases hvs with
    | nil => exact ⟨rfl, rfl⟩
    | cons hp hu _ => exact absurd hu (hk _ hp _ _)
  | cons hp hu _ ih =>
    cases hvs with
    | nil => exact absurd hu (hk' _ hp _ _)
    | cons hp' hu' hvs =>
      obtain ⟨rfl, rfl⟩ := hsole _ le_rfl hp hp' hu hu'
      obtain ⟨rfl, rfl⟩ := ih (fun m hm => hsole m (hu.le.trans hm)) hvs hk
      exact ⟨rfl, rfl⟩

/-- An optional token is there exactly when it can be. -/
theorem optional_unique {x : Token} (hp : cfg.productions p = [[], [.token x]])
    (h : cfg.IsPiece cs (.goal p) i k t) (h' : cfg.IsPiece cs (.goal p) i k' t')
    (hk : x.length (cs.drop k) = 0) (hk' : x.length (cs.drop k') = 0) : k = k' ∧ t = t' := by
  have hcases : ∀ {k t}, cfg.IsPiece cs (.goal p) i k t →
      (k = i ∧ t = .node p 0 []) ∨
        (x.length (cs.drop i) ≠ 0 ∧ ∃ u, t = .node p 1 [u] ∧ cfg.IsPiece cs (.token x) i k u) := by
    intro k t ht
    obtain ⟨q, ps, ts, rfl, hq, hts⟩ := Cfg.isPiece_goal_iff.mp ht
    rw [hp] at hq
    match q, hq with
    | 0, hq =>
      cases hq
      obtain ⟨rfl, rfl⟩ := Cfg.arePieces_nil_iff.mp hts
      exact .inl ⟨rfl, rfl⟩
    | 1, hq =>
      cases hq
      obtain ⟨_, u, _, rfl, hu, hnil⟩ := Cfg.arePieces_cons_iff.mp hts
      obtain ⟨rfl, rfl⟩ := Cfg.arePieces_nil_iff.mp hnil
      exact .inr ⟨(exists_leaf hu).2.1, u, rfl, hu⟩
  rcases hcases h with ⟨rfl, rfl⟩ | ⟨hne, u, rfl, hu⟩ <;>
    rcases hcases h' with ⟨rfl, rfl⟩ | ⟨hne', u', rfl, hu'⟩
  · exact ⟨rfl, rfl⟩
  · exact absurd hk hne'
  · exact absurd hk' hne
  · obtain ⟨rfl, rfl⟩ := token_unique hu hu'
    exact ⟨rfl, rfl⟩

/-- A phrase that is closed where it ends has one tree at most. -/
theorem closed_unique {x : Token} (hsole : ∀ m, i ≤ m → Sole cs m) (hx : x.closes p = true)
    (h : cfg.IsPiece cs (.goal p) i k t) (h' : cfg.IsPiece cs (.goal p) i k' t')
    (hk : Closes cs k p) (hk' : Closes cs k' p) : k = k' ∧ t = t' := by
  cases p with
  | gap => exact optional_unique (x := .blanks) rfl h h' hk hk'
  | body => exact optional_unique (x := .text) rfl h h' hk hk'
  | level =>
    obtain ⟨us, rfl, hus⟩ := isPiece_level_iff.mp h
    obtain ⟨vs, rfl, hvs⟩ := isPiece_level_iff.mp h'
    obtain ⟨rfl, rfl⟩ := chain_unique hsole hus hvs hk hk'
    exact ⟨rfl, rfl⟩
  | _ =>
    unfold Token.closes at hx
    split at hx <;> simp_all

/-- **Parts of which every open one is closed** have one list of trees at most. -/
theorem pieces_unique (hsole : ∀ m, i ≤ m → Sole cs m) (hsettled : settled ps = true)
    (h : cfg.ArePieces cs ps i k ts) (h' : cfg.ArePieces cs ps i k' ts') : k = k' ∧ ts = ts' := by
  induction ps using settled.induct generalizing i ts ts' with
  | case1 =>
    obtain ⟨rfl, rfl⟩ := Cfg.arePieces_nil_iff.mp h
    obtain ⟨rfl, rfl⟩ := Cfg.arePieces_nil_iff.mp h'
    exact ⟨rfl, rfl⟩
  | case2 x ps ih =>
    obtain ⟨j, t, ts, rfl, ht, hts⟩ := Cfg.arePieces_cons_iff.mp h
    obtain ⟨_, _, _, rfl, ht', hts'⟩ := Cfg.arePieces_cons_iff.mp h'
    obtain ⟨rfl, rfl⟩ := token_unique ht ht'
    obtain ⟨rfl, rfl⟩ := ih (fun m hm => hsole m (ht.le.trans hm)) hsettled hts hts'
    exact ⟨rfl, rfl⟩
  | case3 p x ps ih =>
    obtain ⟨hx, hsettled⟩ := Bool.and_eq_true_iff.mp hsettled
    obtain ⟨j, t, us, rfl, ht, hus⟩ := Cfg.arePieces_cons_iff.mp h
    obtain ⟨_, _, _, rfl, ht', hus'⟩ := Cfg.arePieces_cons_iff.mp h'
    obtain ⟨l, u, ts, rfl, hu, hts⟩ := Cfg.arePieces_cons_iff.mp hus
    obtain ⟨_, _, _, rfl, hu', hts'⟩ := Cfg.arePieces_cons_iff.mp hus'
    obtain ⟨rfl, rfl⟩ := closed_unique hsole hx ht ht' (closes_of_isPiece hx hu)
      (closes_of_isPiece hx hu')
    obtain ⟨rfl, rfl⟩ := token_unique hu hu'
    obtain ⟨rfl, rfl⟩ := ih (fun m hm => hsole m (ht.le.trans (hu.le.trans hm))) hsettled hts hts'
    exact ⟨rfl, rfl⟩
  | case4 p ps _ =>
    simp_all [settled]

/-- The same of parts that start with a token, when only what starts later is known. -/
theorem pieces_unique_of_token {x : Token} (hsole : ∀ m, i < m → Sole cs m)
    (hsettled : settled ps = true) (h : cfg.ArePieces cs (.token x :: ps) i k ts)
    (h' : cfg.ArePieces cs (.token x :: ps) i k' ts') : k = k' ∧ ts = ts' := by
  obtain ⟨j, t, ts, rfl, ht, hts⟩ := Cfg.arePieces_cons_iff.mp h
  obtain ⟨_, _, _, rfl, ht', hts'⟩ := Cfg.arePieces_cons_iff.mp h'
  obtain ⟨rfl, rfl⟩ := token_unique ht ht'
  have hlt : i < j := by
    obtain ⟨rfl, hne, -⟩ := exists_leaf ht
    omega
  obtain ⟨rfl, rfl⟩ := pieces_unique (fun m hm => hsole m (hlt.trans_le hm)) hsettled hts hts'
  exact ⟨rfl, rfl⟩

/-! ### Members that start alike -/

/-- Lists of parts that do not start at the same position. -/
def Apart (cs : List Char) (ps ps' : List (Part Phrase Token)) : Prop :=
  ∀ i k k' ts ts', cfg.ArePieces cs ps i k ts → ¬ cfg.ArePieces cs ps' i k' ts'

/-- What may follow a name with blanks or without, and what must follow it with blanks. -/
theorem apart_gap {m : Mark} (hm : m = .as ∨ m = .separator) :
    Apart cs (.goal .gap :: Phrase.mark .closing :: ps)
      (.token .blanks :: Phrase.mark m :: ps') := by
  intro i k k' ts ts' h h'
  obtain ⟨j, _, _, rfl, hgap, hrest⟩ := Cfg.arePieces_cons_iff.mp h
  obtain ⟨_, _, _, rfl, hclosing, -⟩ := Cfg.arePieces_cons_iff.mp hrest
  obtain ⟨rest, hdrop, -⟩ := drop_of_mark hclosing
  obtain ⟨j', _, _, rfl, hblanks, hrest'⟩ := Cfg.arePieces_cons_iff.mp h'
  obtain ⟨_, _, _, rfl, hmark, -⟩ := Cfg.arePieces_cons_iff.mp hrest'
  obtain ⟨rest', hdrop', -⟩ := drop_of_mark hmark
  have hgap' : cfg.IsPiece cs (.goal .gap) i j' _ := .node (q := 1) rfl (.cons hblanks .nil)
  obtain ⟨rfl, -⟩ := optional_unique rfl hgap hgap' (by rw [hdrop]; rfl)
    (by rw [hdrop']; rcases hm with rfl | rfl <;> rfl)
  rw [hdrop] at hdrop'
  rcases hm with rfl | rfl <;> simp [Mark.text] at hdrop'

/-- A text of a conditional with another one after it, and without. -/
theorem apart_body : Apart cs (.goal .body :: Phrase.mark .ifEnd :: ps)
    (.goal .body :: Phrase.mark .otherwise :: ps') := by
  intro i k k' ts ts' h h'
  obtain ⟨j, _, _, rfl, hbody, hrest⟩ := Cfg.arePieces_cons_iff.mp h
  obtain ⟨_, _, _, rfl, hend, -⟩ := Cfg.arePieces_cons_iff.mp hrest
  obtain ⟨j', _, _, rfl, hbody', hrest'⟩ := Cfg.arePieces_cons_iff.mp h'
  obtain ⟨_, _, _, rfl, hotherwise, -⟩ := Cfg.arePieces_cons_iff.mp hrest'
  obtain ⟨rfl, -⟩ := optional_unique (x := .text) rfl hbody hbody'
    (closes_of_isPiece (p := .body) rfl hend) (closes_of_isPiece (p := .body) rfl hotherwise)
  obtain ⟨rest, hdrop, -⟩ := drop_of_mark hend
  obtain ⟨rest', hdrop', -⟩ := drop_of_mark hotherwise
  rw [hdrop] at hdrop'
  simp [Mark.text] at hdrop'

/-- Pairs of different members that start with the same mark. -/
def rivals : List (Phrase × Phrase) :=
  [(.binding, .formatted), (.shown, .choice), (.block .join, .separated)]

/-- **Rivals part** after a front that they share. -/
theorem apart_of_rivals (cs : List Char) (h : (p, p') ∈ rivals) : ∃ x front ps ps',
    cfg.productions p = [(.token x :: front) ++ ps] ∧
      cfg.productions p' = [(.token x :: front) ++ ps'] ∧
      settled front = true ∧ Apart cs ps ps' := by
  have hcases : (p, p') = (.binding, .formatted) ∨ (p, p') = (.shown, .choice) ∨
      (p, p') = (.block .join, .separated) := by simpa [rivals] using h
  rcases hcases with h | h | h
  · cases h
    exact ⟨.mark .opening, [.goal .gap, .token .name], _, _, rfl, rfl, rfl, apart_gap (by simp)⟩
  · cases h
    exact ⟨.mark .ifStart, (Phrase.opening .ifStart).tail, _, _, rfl, rfl, rfl, apart_body⟩
  · cases h
    exact ⟨.mark (.blockStart .join), [.token .blanks, .token .name], _, _, rfl, rfl, rfl,
      apart_gap (by simp)⟩

/-- **Rivals do not start** at the same position. -/
theorem not_rivals (hsole : ∀ m, i < m → Sole cs m) (h : (p, p') ∈ rivals)
    (hu : cfg.IsPiece cs (.goal p) i k t) : ¬ cfg.IsPiece cs (.goal p') i k' t' := by
  intro hu'
  obtain ⟨x, front, ps, ps', hproductions, hproductions', hsettled, hapart⟩ :=
    apart_of_rivals cs h
  obtain ⟨q, qs, ts, rfl, hq, hts⟩ := Cfg.isPiece_goal_iff.mp hu
  obtain ⟨q', qs', ts', rfl, hq', hts'⟩ := Cfg.isPiece_goal_iff.mp hu'
  obtain rfl := List.mem_singleton.mp (hproductions ▸ List.mem_of_getElem? hq)
  obtain rfl := List.mem_singleton.mp (hproductions' ▸ List.mem_of_getElem? hq')
  obtain ⟨j, us, vs, rfl, hus, hvs⟩ := Cfg.arePieces_append_iff.mp hts
  obtain ⟨j', us', vs', rfl, hus', hvs'⟩ := Cfg.arePieces_append_iff.mp hts'
  obtain ⟨rfl, -⟩ := pieces_unique_of_token hsole hsettled hus hus'
  exact hapart _ _ _ _ _ hvs hvs'

/-- The way a member is made up: a token first, and what follows closes what is open. -/
theorem exists_production (hp : p ∈ Phrase.members) : ∃ x ps,
    cfg.productions p = [.token x :: ps] ∧ settled ps = true := by
  cases p with
  | level | gap | body => exact absurd hp (by decide)
  | block b => exact ⟨_, _, rfl, by cases b <;> rfl⟩
  | _ => exact ⟨_, _, rfl, rfl⟩

/-- A member has one tree at most. -/
theorem member_unique (hsole : ∀ m, i < m → Sole cs m) (hp : p ∈ Phrase.members)
    (h : cfg.IsPiece cs (.goal p) i k t) (h' : cfg.IsPiece cs (.goal p) i k' t') :
    k = k' ∧ t = t' := by
  obtain ⟨x, ps, hproductions, hsettled⟩ := exists_production hp
  obtain ⟨q, qs, ts, rfl, hq, hts⟩ := Cfg.isPiece_goal_iff.mp h
  obtain ⟨q', qs', ts', rfl, hq', hts'⟩ := Cfg.isPiece_goal_iff.mp h'
  rw [hproductions, List.getElem?_singleton] at hq hq'
  obtain ⟨rfl, rfl⟩ : q = 0 ∧ .token x :: ps = qs := by simpa using hq
  obtain ⟨rfl, rfl⟩ : q' = 0 ∧ .token x :: ps = qs' := by simpa using hq'
  obtain ⟨rfl, rfl⟩ := pieces_unique_of_token hsole hsettled hts hts'
  exact ⟨rfl, rfl⟩

end

/-- **No two members start at the same position** of a text. -/
theorem sole (cs : List Char) (i : Nat) : Sole cs i := by
  -- a member reads a token first, so the levels in it start later
  induction hn : cs.length - i using Nat.strong_induction_on generalizing i with
  | _ n ih =>
    subst hn
    intro p p' k k' u u' hp hp' hu hu'
    have hlt : i < cs.length := by
      by_contra hle
      exact closes_level_of_le (Nat.le_of_not_lt hle) p hp k u hu
    have hlater : ∀ m, i < m → Sole cs m := fun m hm => ih _ (by omega) m rfl
    have hstart : p.start? = p'.start? :=
      (startOf_of_isPiece hp hu).symm.trans (startOf_of_isPiece hp' hu')
    have hpairs : ∀ p ∈ Phrase.members, ∀ p' ∈ Phrase.members, p.start? = p'.start? →
        p = p' ∨ (p, p') ∈ rivals ∨ (p', p) ∈ rivals := by decide
    rcases hpairs p hp p' hp' hstart with rfl | hrivals | hrivals
    · exact member_unique hlater hp hu hu'
    · exact absurd hu' (not_rivals hlater hrivals hu)
    · exact absurd hu (not_rivals hlater hrivals hu')

/-- **A text has one tree at most** as a level of nodes. -/
theorem tree_unique {cs : List Char} {t t' : Tree Phrase}
    (h : cfg.IsPiece cs (.goal .level) 0 cs.length t)
    (h' : cfg.IsPiece cs (.goal .level) 0 cs.length t') : t = t' :=
  (closed_unique (x := .mark (.blockEnd .clause)) (fun m _ => sole cs m) rfl h h'
    (closes_level_of_le le_rfl) (closes_level_of_le le_rfl)).2

/-! ### Reading -/

/-- A level is refused for one of its strings only. -/
theorem exists_of_levelOf_error {place : Nat → Text.Position} {separator : String}
    {t : Tree Phrase} {f : Fault} (h : levelOf place separator t = .error f) :
    ∃ cs, readString cs = .error f := by
  induction t using levelOf.induct with
  | case9 t => simp_all [levelOf]
  | _ =>
    simp only [levelOf, Outcome.bind_eq_error, pure, Except.pure, reduceCtorEq, and_false,
      exists_false, or_false] at h
    grind

/-- **A text is refused** at a character that no tree goes on with, or for one of its strings. -/
theorem read_error_cases {text separator : String} {file : Option String} {f : Fault}
    (h : read text file separator = .error f) :
    (∃ furthest expected, f = (Grammar.unreadable text.toList furthest expected).inFile file) ∨
      ∃ cs f', readString cs = .error f' ∧ f = f'.inFile file := by
  have hspec := Cfg.read_spec mem_goals tokens_le not_leads .level text.toList
  unfold read at h
  simp only at h
  cases hread : cfg.read .level text.toList with
  | none furthest expected =>
    rw [hread] at h
    cases h
    exact .inl ⟨furthest, _, rfl⟩
  | several =>
    rw [hread] at hspec
    obtain ⟨t, t', hne, ht, ht'⟩ := hspec
    exact absurd (tree_unique ht ht') hne
  | one t =>
    rw [hread] at h
    simp only at h
    split at h
    · cases h
    · rename_i f' hlevel
      cases h
      obtain ⟨cs, hcs⟩ := exists_of_levelOf_error hlevel
      exact .inr ⟨cs, f', hcs, rfl⟩

/-- **A text is read by any tree of it.** -/
theorem read_of_isPiece {text separator : String} {t : Tree Phrase} {level : List Node}
    (h : cfg.IsPiece text.toList (.goal .level) 0 text.toList.length t)
    (hlevel : levelOf (Text.Position.of text.toList) separator t = .ok level) (file : Option String) :
    read text file separator = .ok (markLast level) := by
  apply read_eq_ok_iff.mpr
  refine ⟨t, fun t' => ?_, level, hlevel, rfl⟩
  constructor
  · intro h'
    exact tree_unique h' h
  · rintro rfl
    exact h

/-- **No text is ambiguous** as a template. -/
theorem read_ne_ambiguous {text separator : String} {file : Option String} {f : Fault}
    (h : read text file separator = .error f) : f.cause ≠ .ambiguous := by
  rcases read_error_cases h with ⟨furthest, expected, rfl⟩ | ⟨cs, f', hcs, rfl⟩
  · exact Fault.Cause.noConfusion
  · unfold readString at hcs
    split at hcs <;> cases hcs <;> exact Fault.Cause.noConfusion

end Covenant.Markup
