import Covenant.Proofs.Markup.Reading

/-!
Levels as lists of members.

* `isPiece_level_iff`: the trees of a level are those of its members, one after the other.
* `levelOf_levelTree`: the nodes of a level are those of its members.
-/

namespace Covenant.Markup

/-! ### Trees of levels -/

def phraseOf : Tree Phrase → Phrase
  | .leaf .. => .level
  | .node p _ _ => p

def levelTree (us : List (Tree Phrase)) : Tree Phrase :=
  us.foldl (fun front u => .node .level (Phrase.members.idxOf (phraseOf u) + 1) [front, u])
    (.node .level 0 [])

theorem levelTree_snoc (us : List (Tree Phrase)) (u : Tree Phrase) : levelTree (us ++ [u]) =
    .node .level (Phrase.members.idxOf (phraseOf u) + 1) [levelTree us, u] := by
  rw [levelTree, List.foldl_append]
  rfl

/-- **Trees of members** that follow each other in a text. -/
inductive Chain (cs : List Char) : Nat → Nat → List (Tree Phrase) → Prop where
  | nil {i : Nat} : Chain cs i i []
  | cons {p : Phrase} {i j k : Nat} {u : Tree Phrase} {us : List (Tree Phrase)}
      (hp : p ∈ Phrase.members) (hu : cfg.IsPiece cs (.goal p) i j u) (hus : Chain cs j k us) :
      Chain cs i k (u :: us)

section

variable {cs : List Char} {i j k : Nat} {u t : Tree Phrase} {us vs : List (Tree Phrase)}
  {p : Phrase}

theorem Chain.append (h : Chain cs i j us) (h' : Chain cs j k vs) : Chain cs i k (us ++ vs) := by
  induction h with
  | nil => exact h'
  | cons hp hu _ ih => exact .cons hp hu (ih h')

theorem Chain.single (hp : p ∈ Phrase.members) (hu : cfg.IsPiece cs (.goal p) i j u) :
    Chain cs i j [u] :=
  .cons hp hu .nil

theorem Chain.stop_le (h : Chain cs i k us) (hi : i ≤ cs.length) : k ≤ cs.length := by
  induction h with
  | nil => exact hi
  | cons _ hu _ ih => exact ih (hu.stop_le tokens_le hi)

theorem Chain.snoc_iff : Chain cs i k (us ++ [u]) ↔ ∃ m p, Chain cs i m us ∧ p ∈ Phrase.members ∧
    cfg.IsPiece cs (.goal p) m k u := by
  constructor
  · intro h
    induction us generalizing i with
    | nil =>
      cases h with
      | cons hp hu hnil =>
        cases hnil
        exact ⟨_, _, .nil, hp, hu⟩
    | cons v us ih =>
      cases h with
      | cons hq hv hrest =>
        obtain ⟨m, p, hus, hp, hu⟩ := ih hrest
        exact ⟨m, p, .cons hq hv hus, hp, hu⟩
  · rintro ⟨m, p, hus, hp, hu⟩
    exact hus.append (.single hp hu)

theorem phraseOf_of_isPiece (h : cfg.IsPiece cs (.goal p) i k t) : phraseOf t = p := by
  obtain ⟨q, ps, ts, rfl, _, _⟩ := Cfg.isPiece_goal_iff.mp h
  rfl

theorem getElem_members_iff {q : Nat} : Phrase.members[q]? = some p ↔
    p ∈ Phrase.members ∧ q = Phrase.members.idxOf p := by
  have hnodup : Phrase.members.Nodup := by decide
  constructor
  · intro h
    obtain ⟨hq, rfl⟩ := List.getElem?_eq_some_iff.mp h
    exact ⟨List.getElem_mem hq, (hnodup.idxOf_getElem q hq).symm⟩
  · rintro ⟨hp, rfl⟩
    exact List.getElem?_eq_some_iff.mpr ⟨List.idxOf_lt_length_iff.mpr hp, List.getElem_idxOf _⟩

/-- A level is empty, or a shorter one with one member more. -/
theorem isPiece_level_cases : cfg.IsPiece cs (.goal .level) i k t ↔
    (i = k ∧ t = .node .level 0 []) ∨ ∃ m p front u, p ∈ Phrase.members ∧
      t = .node .level (Phrase.members.idxOf p + 1) [front, u] ∧
      cfg.IsPiece cs (.goal .level) i m front ∧ cfg.IsPiece cs (.goal p) m k u := by
  rw [Cfg.isPiece_goal_iff]
  constructor
  · rintro ⟨q, ps, ts, rfl, hq, hts⟩
    cases q with
    | zero =>
      cases hq
      obtain ⟨rfl, rfl⟩ := Cfg.arePieces_nil_iff.mp hts
      exact .inl ⟨rfl, rfl⟩
    | succ q =>
      have hmap : (Phrase.members.map fun p => [.goal .level, .goal p])[q]? = some ps := hq
      rw [List.getElem?_map] at hmap
      obtain ⟨p, hp, rfl⟩ := Option.map_eq_some_iff.mp hmap
      obtain ⟨hmem, rfl⟩ := getElem_members_iff.mp hp
      obtain ⟨m, front, _, rfl, hfront, hrest⟩ := Cfg.arePieces_cons_iff.mp hts
      obtain ⟨_, u, _, rfl, hu, hnil⟩ := Cfg.arePieces_cons_iff.mp hrest
      obtain ⟨rfl, rfl⟩ := Cfg.arePieces_nil_iff.mp hnil
      exact .inr ⟨m, p, front, u, hmem, rfl, hfront, hu⟩
  · rintro (⟨rfl, rfl⟩ | ⟨m, p, front, u, hp, rfl, hfront, hu⟩)
    · exact ⟨0, [], [], rfl, rfl, .nil⟩
    · refine ⟨_, [.goal .level, .goal p], _, rfl, ?_, .cons hfront (.cons hu .nil)⟩
      change (Phrase.members.map fun p =>
        ([.goal .level, .goal p] : List (Part Phrase Token)))[Phrase.members.idxOf p]? = _
      rw [List.getElem?_map, getElem_members_iff.mpr ⟨hp, rfl⟩]
      rfl

/-- **The trees of a level** are those of its members, one after the other. -/
theorem isPiece_level_iff : cfg.IsPiece cs (.goal .level) i k t ↔
    ∃ us, t = levelTree us ∧ Chain cs i k us := by
  constructor
  · intro h
    induction hn : sizeOf t using Nat.strong_induction_on generalizing k t with
    | _ n ih =>
      subst hn
      rcases isPiece_level_cases.mp h with ⟨rfl, rfl⟩ | ⟨m, p, front, u, hp, rfl, hfront, hu⟩
      · exact ⟨[], rfl, .nil⟩
      · obtain ⟨us, rfl, hus⟩ := ih _ (by simp; omega) hfront rfl
        refine ⟨us ++ [u], ?_, Chain.snoc_iff.mpr ⟨m, p, hus, hp, hu⟩⟩
        rw [levelTree_snoc, phraseOf_of_isPiece hu]
  · rintro ⟨us, rfl, hus⟩
    induction us using List.reverseRecOn generalizing k with
    | nil =>
      cases hus
      exact isPiece_level_cases.mpr (.inl ⟨rfl, rfl⟩)
    | append_singleton us u ih =>
      obtain ⟨m, p, hus, hp, hu⟩ := Chain.snoc_iff.mp hus
      rw [levelTree_snoc, phraseOf_of_isPiece hu]
      exact isPiece_level_cases.mpr (.inr ⟨m, p, _, u, hp, rfl, ih hus, hu⟩)

end

/-! ### The shapes of members -/

def NameAt (cs : List Char) (i : Nat) (name : List Char) : Prop :=
  name ≠ [] ∧ name = (cs.drop i).take (nameRun (cs.drop i))

/-- A text at a place: all that comes before two opening braces or the end. -/
def TextAt (cs : List Char) (i : Nat) (body : List Char) : Prop :=
  body ≠ [] ∧ body = (cs.drop i).take (textRun (cs.drop i))

/-- An expression at a place: all between its marks. -/
def ExpressionAt (cs : List Char) (i : Nat) (body : List Char) : Prop :=
  ∃ j rest, cs.drop j = Mark.expressionStart.text.toList ++
      (body ++ (Mark.expressionEnd.text.toList ++ rest)) ∧
    i = j + Mark.expressionStart.text.toList.length

/-- **The shapes of members**: where their texts and names stand, and the levels in them. -/
inductive Shaped (cs : List Char) : Tree Phrase → Prop where
  | text {q i : Nat} {w : List Char} (htext : TextAt cs i w) : Shaped cs (.node .text q [.leaf i w])
  | binding {q i : Nat} {name : List Char} {a b c d : Tree Phrase} (hname : NameAt cs i name) :
      Shaped cs (.node .binding q [a, b, .leaf i name, c, d])
  | formatted {q i i' : Nat} {name format : List Char} {a b c d e f g : Tree Phrase}
      (hname : NameAt cs i name) :
      Shaped cs (.node .formatted q [a, b, .leaf i name, c, d, e, .leaf i' format, f, g])
  | shown {q i : Nat} {name : List Char} {a b c d e f : Tree Phrase} (hname : NameAt cs i name) :
      Shaped cs (.node .shown q [a, b, .leaf i name, c, d, e, f])
  | choice {q i : Nat} {name : List Char} {a b c d e f g h : Tree Phrase}
      (hname : NameAt cs i name) :
      Shaped cs (.node .choice q [a, b, .leaf i name, c, d, e, f, g, h])
  | block {k : Keyword} {q i j j' : Nat} {name : List Char} {a b c d e nested : Tree Phrase}
      (hname : NameAt cs i name) (hnested : cfg.IsPiece cs (.goal .level) j j' nested) :
      Shaped cs (.node (.block k) q [a, b, .leaf i name, c, d, nested, e])
  | separated {q i i' j j' : Nat} {name own : List Char}
      {a b c d e f g h l m nested : Tree Phrase} (hname : NameAt cs i name)
      (hnested : cfg.IsPiece cs (.goal .level) j j' nested) :
      Shaped cs (.node .separated q
        [a, b, .leaf i name, c, d, e, f, g, .leaf i' own, h, l, nested, m])
  | expression {q i : Nat} {w : List Char} {a b : Tree Phrase} (hbody : ExpressionAt cs i w) :
      Shaped cs (.node .expression q [a, .leaf i w, b])

section

variable {cs : List Char} {i k : Nat} {t u : Tree Phrase} {p : Phrase}

/-- The tree of a token. -/
theorem exists_leaf {x : Token} (h : cfg.IsPiece cs (.token x) i k t) :
    k = i + x.length (cs.drop i) ∧ x.length (cs.drop i) ≠ 0 ∧
      t = .leaf i ((cs.drop i).take (x.length (cs.drop i))) := by
  obtain ⟨n, hn, rfl, rfl⟩ := Cfg.isPiece_token_iff.mp h
  obtain ⟨rfl, hne⟩ := tokens_ne_zero hn
  exact ⟨rfl, hne, rfl⟩

/-- A mark that stands at a position. -/
theorem drop_of_mark {m : Mark} (h : cfg.IsPiece cs (.token (.mark m)) i k t) :
    ∃ rest, cs.drop i = m.text.toList ++ rest ∧ cs.drop k = rest ∧
      k = i + m.text.toList.length := by
  obtain ⟨hk, hne, -⟩ := exists_leaf h
  obtain ⟨rest, hrest⟩ := Token.exists_of_mark hne
  have hlength : (Token.mark m).length (cs.drop i) = m.text.toList.length := by
    rw [Token.length] at hne ⊢
    split at hne
    · rw [if_pos ‹_›, String.length_toList]
    · exact absurd rfl hne
  rw [hlength] at hk
  refine ⟨rest, hrest, ?_, hk⟩
  rw [hk, ← List.drop_drop, hrest, List.drop_left]

theorem textAt_of_isPiece (h : cfg.IsPiece cs (.token .text) i k t) :
    ∃ body, t = .leaf i body ∧ TextAt cs i body := by
  obtain ⟨-, hne, rfl⟩ := exists_leaf h
  refine ⟨_, rfl, ?_, rfl⟩
  intro hnil
  have hlength := congrArg List.length hnil
  have hle := Token.length_le .text (cs.drop i)
  rw [List.length_take, Nat.min_eq_left hle] at hlength
  exact hne hlength

/-- An expression between its marks. -/
theorem expressionAt_of_isPiece {j m : Nat} {a b : Tree Phrase}
    (hstart : cfg.IsPiece cs (.token (.mark .expressionStart)) j i a)
    (h : cfg.IsPiece cs (.token .expression) i m t)
    (hend : cfg.IsPiece cs (.token (.mark .expressionEnd)) m k b) :
    ∃ body, t = .leaf i body ∧ ExpressionAt cs i body := by
  obtain ⟨_, hbody, rfl, hi⟩ := drop_of_mark hstart
  obtain ⟨rest, hrest, -⟩ := drop_of_mark hend
  obtain ⟨rfl, -, rfl⟩ := exists_leaf h
  refine ⟨_, rfl, j, rest, ?_, hi⟩
  rw [← hrest, ← List.drop_drop, List.take_append_drop, hbody]

theorem nameAt_of_isPiece (h : cfg.IsPiece cs (.token .name) i k t) :
    ∃ name, t = .leaf i name ∧ NameAt cs i name := by
  obtain ⟨-, hne, rfl⟩ := exists_leaf h
  refine ⟨_, rfl, ?_, rfl⟩
  have hle := nameRun_le (cs.drop i)
  intro hnil
  have hlength := congrArg List.length hnil
  rw [List.length_take] at hlength
  change min (nameRun _) _ = 0 at hlength
  change nameRun _ ≠ 0 at hne
  omega

/-- Trees of parts of which the third is a name. -/
theorem exists_named {x y : Part Phrase Token} {ps : List (Part Phrase Token)}
    {ts : List (Tree Phrase)} (h : cfg.ArePieces cs (x :: y :: .token .name :: ps) i k ts) :
    ∃ a b j name m us, ts = a :: b :: .leaf j name :: us ∧ NameAt cs j name ∧
      cfg.ArePieces cs ps m k us := by
  obtain ⟨_, a, _, rfl, -, h⟩ := Cfg.arePieces_cons_iff.mp h
  obtain ⟨i', b, _, rfl, -, h⟩ := Cfg.arePieces_cons_iff.mp h
  obtain ⟨m, _, us, rfl, hname, hrest⟩ := Cfg.arePieces_cons_iff.mp h
  obtain ⟨name, rfl, hat⟩ := nameAt_of_isPiece hname
  exact ⟨a, b, i', name, m, us, rfl, hat, hrest⟩

/-- **Every member has one of the shapes.** -/
theorem shaped_of_isPiece (hp : p ∈ Phrase.members) (h : cfg.IsPiece cs (.goal p) i k u) :
    Shaped cs u := by
  obtain ⟨q, ps, ts, rfl, hq, hts⟩ := Cfg.isPiece_goal_iff.mp h
  have hps : ps ∈ p.productions := List.mem_of_getElem? hq
  simp only [Phrase.productions, Phrase.opening, List.cons_append, List.nil_append] at hps
  cases p with
  | level | gap | body => exact absurd hp (by decide)
  | text =>
    obtain rfl := List.mem_singleton.mp hps
    simp only [Cfg.arePieces_cons_iff, Cfg.arePieces_nil_iff] at hts
    obtain ⟨_, _, _, rfl, hw, -, rfl⟩ := hts
    obtain ⟨body, rfl, htext⟩ := textAt_of_isPiece hw
    exact .text htext
  | expression =>
    obtain rfl := List.mem_singleton.mp hps
    simp only [Cfg.arePieces_cons_iff, Cfg.arePieces_nil_iff] at hts
    obtain ⟨_, _, _, rfl, hstart, _, _, _, rfl, hw, _, _, _, rfl, hend, -, rfl⟩ := hts
    obtain ⟨body, rfl, hbody⟩ := expressionAt_of_isPiece hstart hw hend
    exact .expression hbody
  | binding =>
    obtain rfl := List.mem_singleton.mp hps
    obtain ⟨a, b, _, name, _, us, rfl, hname, hrest⟩ := exists_named hts
    simp only [Cfg.arePieces_cons_iff, Cfg.arePieces_nil_iff] at hrest
    obtain ⟨_, _, _, rfl, -, _, _, _, rfl, -, -, rfl⟩ := hrest
    exact .binding hname
  | formatted =>
    obtain rfl := List.mem_singleton.mp hps
    obtain ⟨a, b, _, name, _, us, rfl, hname, hrest⟩ := exists_named hts
    simp only [Cfg.arePieces_cons_iff, Cfg.arePieces_nil_iff] at hrest
    obtain ⟨_, _, _, rfl, -, _, _, _, rfl, -, _, _, _, rfl, -, _, _, _, rfl, hformat,
      _, _, _, rfl, -, _, _, _, rfl, -, -, rfl⟩ := hrest
    obtain ⟨-, -, rfl⟩ := exists_leaf hformat
    exact .formatted hname
  | shown =>
    obtain rfl := List.mem_singleton.mp hps
    obtain ⟨a, b, _, name, _, us, rfl, hname, hrest⟩ := exists_named hts
    simp only [Cfg.arePieces_cons_iff, Cfg.arePieces_nil_iff] at hrest
    obtain ⟨_, _, _, rfl, -, _, _, _, rfl, -, _, _, _, rfl, -, _, _, _, rfl, -, -, rfl⟩ := hrest
    exact .shown hname
  | choice =>
    obtain rfl := List.mem_singleton.mp hps
    obtain ⟨a, b, _, name, _, us, rfl, hname, hrest⟩ := exists_named hts
    simp only [Cfg.arePieces_cons_iff, Cfg.arePieces_nil_iff] at hrest
    obtain ⟨_, _, _, rfl, -, _, _, _, rfl, -, _, _, _, rfl, -, _, _, _, rfl, -, _, _, _, rfl, -,
      _, _, _, rfl, -, -, rfl⟩ := hrest
    exact .choice hname
  | block b =>
    obtain rfl := List.mem_singleton.mp hps
    obtain ⟨a, b, _, name, _, us, rfl, hname, hrest⟩ := exists_named hts
    simp only [Cfg.arePieces_cons_iff, Cfg.arePieces_nil_iff] at hrest
    obtain ⟨_, _, _, rfl, -, _, _, _, rfl, -, _, _, _, rfl, hnested,
      _, _, _, rfl, -, -, rfl⟩ := hrest
    exact .block hname hnested
  | separated =>
    obtain rfl := List.mem_singleton.mp hps
    obtain ⟨a, b, _, name, _, us, rfl, hname, hrest⟩ := exists_named hts
    simp only [Cfg.arePieces_cons_iff, Cfg.arePieces_nil_iff] at hrest
    obtain ⟨_, _, _, rfl, -, _, _, _, rfl, -, _, _, _, rfl, -, _, _, _, rfl, -, _, _, _, rfl, -,
      _, _, _, rfl, hown, _, _, _, rfl, -, _, _, _, rfl, -, _, _, _, rfl, hnested,
      _, _, _, rfl, -, -, rfl⟩ := hrest
    obtain ⟨-, -, rfl⟩ := exists_leaf hown
    exact .separated hname hnested

/-- Members that follow each other have one of the shapes each. -/
theorem Chain.shaped {us : List (Tree Phrase)} (h : Chain cs i k us) (hu : u ∈ us) :
    Shaped cs u := by
  induction h with
  | nil => cases hu
  | cons hp hv _ ih =>
    rcases List.mem_cons.mp hu with rfl | hu
    · exact shaped_of_isPiece hp hv
    · exact ih hu

end

/-! ### Nodes of levels -/

section

variable (place : Nat → Text.Position) (separator : String)

def nodeOf : Tree Phrase → Outcome Node
  | .node .text _ [.leaf i cs] => .ok (.text (String.ofList cs) false (place i))
  | .node .binding _ [_, _, .leaf i name, _, _] =>
    .ok (.binding (String.ofList name) none (place i))
  | .node .formatted _ [_, _, .leaf i name, _, _, _, .leaf _ format, _, _] =>
    (readString format).map fun format => .formatted (String.ofList name) format (place i)
  | .node .shown _ [_, _, .leaf i name, _, _, whenTrue, _] =>
    .ok (.shown (String.ofList name) (bodyText whenTrue) (place i))
  | .node .choice _ [_, _, .leaf i name, _, _, whenTrue, _, whenFalse, _] =>
    .ok (.choice (String.ofList name) (bodyText whenTrue) (bodyText whenFalse) (place i))
  | .node (.block k) _ [_, _, .leaf i name, _, _, nested, _] =>
    (levelOf place separator nested).map fun nested =>
      .block (k.block separator) (String.ofList name) (markLast nested) (place i)
  | .node .separated _ [_, _, .leaf i name, _, _, _, _, _, .leaf _ own, _, _, nested, _] =>
    (levelOf place separator nested).bind fun nested => (readString own).map fun own =>
      .block (.list (.joined own)) (String.ofList name) (markLast nested) (place i)
  | .node .expression _ [_, .leaf i cs, _] =>
    .ok (.expression (Text.strip (String.ofList cs)) (place i))
  | _ => .fail .undefined

variable {place : Nat → Text.Position} {separator : String} {cs : List Char} {i k : Nat}

/-- A level with one member more has one node more. -/
theorem levelOf_snoc {q : Nat} {front u : Tree Phrase} (h : Shaped cs u) :
    levelOf place separator (.node .level q [front, u]) =
      (levelOf place separator front).bind fun before =>
        (nodeOf place separator u).map fun n => before ++ [n] := by
  cases h with
  | @formatted _ _ _ _ format =>
    rw [levelOf, nodeOf]
    cases levelOf place separator front <;> cases readString format <;> rfl
  | @block _ _ _ _ _ _ _ _ _ _ _ nested =>
    rw [levelOf, nodeOf]
    cases levelOf place separator front <;> cases levelOf place separator nested <;> rfl
  | @separated _ _ _ _ _ _ own _ _ _ _ _ _ _ _ _ _ nested =>
    rw [levelOf, nodeOf]
    cases levelOf place separator front <;> cases levelOf place separator nested <;>
      cases readString own <;> rfl
  | _ =>
    rw [levelOf, nodeOf]
    cases levelOf place separator front <;> rfl

/-- **The nodes of a level** are those of its members. -/
theorem levelOf_levelTree {us : List (Tree Phrase)} (h : Chain cs i k us) :
    levelOf place separator (levelTree us) = us.mapM (nodeOf place separator) := by
  induction us using List.reverseRecOn generalizing k with
  | nil => rfl
  | append_singleton us u ih =>
    obtain ⟨m, p, hus, hp, hu⟩ := Chain.snoc_iff.mp h
    rw [levelTree_snoc, levelOf_snoc (shaped_of_isPiece hp hu), ih hus, List.mapM_append]
    cases us.mapM (nodeOf place separator) <;> cases hnode : nodeOf place separator u <;>
      simp [hnode] <;> rfl

end

end Covenant.Markup
