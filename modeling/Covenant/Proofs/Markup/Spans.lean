import Covenant.Proofs.Document.Places
import Covenant.Proofs.Markup.Answers
import Covenant.Proofs.Markup.Blame
import Covenant.Proofs.Markup.Completeness
import Covenant.Proofs.Markup.Members
import Covenant.Proofs.Markup.Unambiguous

/-!
Where the nodes of a template stand in its markup, and what the spans of misfits cover.

* `Node.Sited`: the place of a node is that of the name of its field.
* `Node.Exact`: it is that of its name, of its text, or of its expression between the marks.
* `exact_of_read`: so it is for every node that a text is read as, at any depth.
* `Node.Sited.standsAt`: what the span of such a node covers is the name.
* `spans_cover_names`: nodes stand where their places say, and the span of a misfit that is laid to
  a field is the name of the field, no more and no less.
-/

namespace Covenant.Markup

open Text (Position StandsAt)

/-! ### Names -/

/-- A name holds letters, digits and underscores only. -/
theorem NameAt.all {cs name : List Char} {i : Nat} (h : NameAt cs i name) :
    ∀ c ∈ name, (c.isAlphanum || c == '_') = true := by
  obtain ⟨hne, hname⟩ := h
  subst hname
  cases hcs : cs.drop i with
  | nil => simp
  | cons c rest =>
    rw [nameRun]
    split
    · rename_i hc
      have hfirst : (c.isAlphanum || c == '_') = true := by
        simp only [Bool.or_eq_true, Char.isAlphanum] at hc ⊢
        exact hc.imp_left .inl
      intro d hd
      rw [List.take_succ_cons, ← List.prefix_iff_eq_take.mp (List.takeWhile_prefix _)] at hd
      rcases List.mem_cons.mp hd with rfl | hd
      · exact hfirst
      · exact List.mem_takeWhile_imp (p := fun c => c.isAlphanum || c == '_') hd
    · simp

theorem NameAt.not_mem {cs name : List Char} {i : Nat} (h : NameAt cs i name) : '\n' ∉ name :=
  fun hmem => absurd (h.all _ hmem) (by decide)

theorem NameAt.isPrefix {cs name : List Char} {i : Nat} (h : NameAt cs i name) :
    name <+: cs.drop i := by
  have hname := h.2
  rw [hname]
  exact List.take_prefix _ _

/-! ### Nodes -/

/-- A node whose place in a text is that of the name of its field. -/
def Node.Sited (cs : List Char) (n : Node) : Prop :=
  ∀ field, n.field? = some field →
    ∃ i, n.place? = some (Position.of cs i) ∧ NameAt cs i field.toList

/-- **A node that stands in a text exactly where its place says**: its name, its text up to the next
braces, or its expression, which is kept without the blanks around it. -/
def Node.Exact (cs : List Char) : Node → Prop
  | .text body _ place => ∃ i, place = Position.of cs i ∧ TextAt cs i body.toList
  | .expression body place => ∃ i w, place = Position.of cs i ∧ ExpressionAt cs i w ∧
      body = Text.strip (String.ofList w)
  | .foreign .. => False
  | n => n.Sited cs

theorem Node.Exact.sited {cs : List Char} {n : Node} (h : n.Exact cs) : n.Sited cs := by
  cases n with
  | text | expression => exact fun _ hf => nomatch hf
  | foreign => exact h.elim
  | _ => exact h

/-- **What the span of a node covers** is the name of its field. -/
theorem Node.Sited.standsAt {cs : List Char} {n : Node} {field : String} {s : Span}
    (h : n.Sited cs) (hfield : n.field? = some field) (hspan : n.span = .ok (some s)) :
    s.stop = some (s.line, s.column + field.length) ∧ '\n' ∉ field.toList ∧ field.toList ≠ [] ∧
      StandsAt cs ⟨s.line, s.column⟩ field.toList := by
  obtain ⟨i, hplace, hname⟩ := h field hfield
  have hs : s = ⟨(Position.of cs i).line, (Position.of cs i).column,
      some ((Position.of cs i).line, (Position.of cs i).column + field.length)⟩ := by
    unfold span at hspan
    split at hspan
    · cases hspan
    · rw [hplace, hfield] at hspan
      cases hspan
      rfl
  subst hs
  exact ⟨rfl, hname.not_mem, hname.1, i, rfl, hname.isPrefix⟩

def Leveled (cs : List Char) (separator : String) (nodes : List Node) : Prop :=
  ∃ j k t level, cfg.IsPiece cs (.goal .level) j k t ∧
    levelOf (Position.of cs) separator t = .ok level ∧ nodes = markLast level

section

variable {cs : List Char} {separator : String} {n : Node} {u : Tree Phrase} {nodes : List Node}

/-- A member stands at the place of its node. -/
theorem exact_of_nodeOf (hu : Shaped cs u) (h : nodeOf (Position.of cs) separator u = .ok n) :
    n.Exact cs := by
  have hsited : ∀ {name : List Char} {i : Nat} {n : Node}, NameAt cs i name →
      n.field? = some (String.ofList name) → n.place? = some (Position.of cs i) → n.Sited cs := by
    intro name i n hname hfield hplace field hf
    obtain rfl := Option.some.inj (hfield.symm.trans hf)
    exact ⟨i, hplace, by rwa [String.toList_ofList]⟩
  cases hu with
  | text htext =>
    cases h
    exact ⟨_, rfl, by rwa [String.toList_ofList]⟩
  | expression hbody =>
    cases h
    exact ⟨_, _, rfl, hbody, rfl⟩
  | binding hname =>
    cases h
    exact hsited hname rfl rfl
  | shown hname =>
    cases h
    exact hsited hname rfl rfl
  | choice hname =>
    cases h
    exact hsited hname rfl rfl
  | formatted hname =>
    obtain ⟨format, -, rfl⟩ := Outcome.map_eq_ok.mp h
    exact hsited hname rfl rfl
  | block hname hnested =>
    obtain ⟨nested, -, rfl⟩ := Outcome.map_eq_ok.mp h
    exact hsited hname rfl rfl
  | separated hname hnested =>
    obtain ⟨nested, -, h⟩ := Outcome.bind_eq_ok.mp h
    obtain ⟨own, -, rfl⟩ := Outcome.map_eq_ok.mp h
    exact hsited hname rfl rfl

/-- What a block lays out is read from some of the text. -/
theorem leveled_of_nodeOf {kind : BlockKind} {field : String} {place : Position} (hu : Shaped cs u)
    (h : nodeOf (Position.of cs) separator u = .ok (.block kind field nodes place)) :
    Leveled cs separator nodes := by
  cases hu with
  | text => cases h
  | expression => cases h
  | binding hname => cases h
  | shown hname => cases h
  | choice hname => cases h
  | formatted hname =>
    obtain ⟨format, -, h⟩ := Outcome.map_eq_ok.mp h
    cases h
  | block hname hnested =>
    obtain ⟨nested, hlevel, h⟩ := Outcome.map_eq_ok.mp h
    cases h
    exact ⟨_, _, _, nested, hnested, hlevel, rfl⟩
  | separated hname hnested =>
    obtain ⟨nested, hlevel, h⟩ := Outcome.bind_eq_ok.mp h
    obtain ⟨own, -, h⟩ := Outcome.map_eq_ok.mp h
    cases h
    exact ⟨_, _, _, nested, hnested, hlevel, rfl⟩

/-- Marking the last text of a level changes no other node, and no text or place. -/
theorem mem_of_markLast {level : List Node} (h : n ∈ markLast level) :
    n ∈ level ∨ ∃ body last place, n = .text body true place ∧ .text body last place ∈ level := by
  unfold markLast at h
  split at h
  · rename_i body last place hlast
    rcases List.mem_append.mp h with h | h
    · exact .inl (List.dropLast_subset _ h)
    · exact .inr ⟨body, last, place, List.mem_singleton.mp h, List.mem_of_getLast? hlast⟩
  · exact .inl h

/-- A node of a level is that of a member, or a text that is marked as the last one. -/
theorem Leveled.exists_member (h : Leveled cs separator nodes) (hn : n ∈ nodes) :
    ∃ u n', Shaped cs u ∧ nodeOf (Position.of cs) separator u = .ok n' ∧
      (n = n' ∨ ∃ body last place, n = .text body true place ∧ n' = .text body last place) := by
  obtain ⟨j, k, t, level, ht, hlevel, rfl⟩ := h
  obtain ⟨us, rfl, hus⟩ := isPiece_level_iff.mp ht
  rw [levelOf_levelTree hus] at hlevel
  rcases mem_of_markLast hn with hmem | ⟨body, last, place, rfl, hmem⟩
  · obtain ⟨u, hu, hnode⟩ := Outcome.exists_of_mem_mapM hlevel hmem
    exact ⟨u, n, hus.shaped hu, hnode, .inl rfl⟩
  · obtain ⟨u, hu, hnode⟩ := Outcome.exists_of_mem_mapM hlevel hmem
    exact ⟨u, _, hus.shaped hu, hnode, .inr ⟨body, last, place, rfl, rfl⟩⟩

/-- **Every node of a level**, at any depth, stands where its place says. -/
theorem Leveled.exact (h : Leveled cs separator nodes) (hn : Occurs n nodes) : n.Exact cs := by
  induction hn with
  | here hn =>
    obtain ⟨u, n', hu, hnode, rfl | ⟨body, last, place, rfl, rfl⟩⟩ := h.exists_member hn
    · exact exact_of_nodeOf hu hnode
    · exact (exact_of_nodeOf hu hnode : (Node.text body last place).Exact cs)
  | within hblock _ ih =>
    obtain ⟨u, n', hu, hnode, rfl | ⟨_, _, _, htext, -⟩⟩ := h.exists_member hblock
    · exact ih (leveled_of_nodeOf hu hnode)
    · cases htext

end

/-- **The nodes that a text is read as** stand where their places say. -/
theorem exact_of_read {text separator : String} {file : Option String} {nodes : List Node}
    {n : Node} (h : read text file separator = .ok nodes) (hn : Occurs n nodes) :
    n.Exact text.toList := by
  obtain ⟨t, ht, level, hlevel, rfl⟩ := read_eq_ok_iff.mp h
  exact Leveled.exact ⟨0, _, t, level, (ht t).mpr rfl, hlevel, rfl⟩ hn

end Covenant.Markup

namespace Covenant

open Text (Position)

/-! ### Spans -/

/-- **A span that covers a word**: it begins where the word stands in the text, and it stops at the
position behind it. -/
def Span.Covers (s : Span) (cs w : List Char) : Prop :=
  ∃ i, Position.of cs i = ⟨s.line, s.column⟩ ∧ (cs.drop i).take w.length = w ∧
    s.stop = some ((Position.of cs (i + w.length)).line, (Position.of cs (i + w.length)).column)

namespace Text

/-- A word within a line takes one column for each character. -/
theorem afterFrom_of_not_mem {w : List Char} (hw : '\n' ∉ w) (p : Position) :
    p.afterFrom w = ⟨p.line, p.column + w.length⟩ := by
  induction w generalizing p with
  | nil => rfl
  | cons c w ih =>
    have hc : c ≠ '\n' := fun h => hw (h ▸ List.mem_cons_self)
    have htail : '\n' ∉ w := fun h => hw (List.mem_cons_of_mem _ h)
    have hstep : p.after c = ⟨p.line, p.column + 1⟩ := if_neg hc
    calc p.afterFrom (c :: w)
      _ = (p.after c).afterFrom w := rfl
      _ = ⟨p.line, p.column + 1 + w.length⟩ := by rw [hstep, ih htail]
      _ = ⟨p.line, p.column + (c :: w).length⟩ := by rw [List.length_cons]; congr 1; omega

theorem of_add {cs w : List Char} {i : Nat} (hw : '\n' ∉ w) (h : (cs.drop i).take w.length = w) :
    Position.of cs (i + w.length) =
      ⟨(Position.of cs i).line, (Position.of cs i).column + w.length⟩ := by
  have hsplit : cs.take (i + w.length) = cs.take i ++ w := by rw [List.take_add, h]
  calc Position.of cs (i + w.length)
    _ = (Position.of cs i).afterFrom w := by
      rw [Position.of, hsplit]
      exact Position.afterFrom_append _ _ _
    _ = _ := afterFrom_of_not_mem hw _

end Text

namespace Markup

/-! ### Spans -/

/-- The span of a node that stands at the name of its field covers the name. -/
theorem Node.Sited.covers {cs : List Char} {n : Node} {field : String} {s : Span}
    (h : n.Sited cs) (hfield : n.field? = some field) (hspan : n.span = .ok (some s)) :
    s.Covers cs field.toList := by
  obtain ⟨hstop, hline, -, i, hplace, hstands⟩ := h.standsAt hfield hspan
  have htake : (cs.drop i).take field.toList.length = field.toList :=
    (List.prefix_iff_eq_take.mp hstands).symm
  refine ⟨i, hplace, htake, ?_⟩
  rw [Text.of_add hline htake, hplace, hstop, String.length_toList]

/-- What is laid to a node that binds nothing is the name of its rule. -/
theorem cause_of_laidTo {nodes : List Node} {n : Node} {f : Fault} {cs : List Char}
    (hexact : ∀ m, Occurs m nodes → m.Exact cs) (hn : Compiler.Spread nodes n)
    (h : f.LaidTo n) (hfield : n.field? = none) : ∃ r, f.cause = .structural (.rule r) := by
  rcases h.unbound hfield with hrule | ⟨kind, field, line, column, rfl⟩
  · exact hrule
  · -- no text is read as a node of an unknown kind, and none is put in front of items
    cases hn with
    | occurs hn => exact (hexact _ hn).elim
    | led hblock hled hn =>
      rcases mem_of_lead hled hn with hmem | ⟨_, _, _, htext⟩
      · exact (hexact _ (hblock.of_block (.here hmem))).elim
      · cases htext

namespace Shop

open Covenant.Shop

/-- An order, the items of which bind what they do not declare, in the second line. -/
def slip : String :=
  "Items\n\x7b\x7b#ulist items\x7d\x7d\x7b\x7bby\x7d\x7d\x7b\x7b/ulist\x7d\x7d"

def slipNodes : List Node :=
  [.text "Items\n" false ⟨1, 1⟩,
    .block (.list .bullets) "items" [.binding "by" none ⟨2, 19⟩] ⟨2, 10⟩]

theorem read_slip : read slip none ", " = .ok slipNodes := by
  have hname : cfg.IsPiece slip.toList (.goal .binding) 22 28 _ :=
    .node (q := 0) rfl (.cons (.leaf (n := 2) (by decide)) (.cons (.node (q := 0) rfl .nil)
      (.cons (.leaf (n := 2) (by decide)) (.cons (.node (q := 0) rfl .nil)
        (.cons (.leaf (n := 2) (by decide)) .nil)))))
  have hitems : cfg.IsPiece slip.toList (.goal .level) 22 28 _ :=
    isPiece_level_iff.mpr ⟨_, rfl, .single (by decide) hname⟩
  have hlist : cfg.IsPiece slip.toList (.goal (.block .ulist)) 6 38 _ :=
    .node (q := 0) rfl (.cons (.leaf (n := 8) (by decide)) (.cons (.leaf (n := 1) (by decide))
      (.cons (.leaf (n := 5) (by decide)) (.cons (.node (q := 0) rfl .nil)
        (.cons (.leaf (n := 2) (by decide)) (.cons hitems (.cons (.leaf (n := 10) (by decide))
          .nil)))))))
  have htext : cfg.IsPiece slip.toList (.goal .text) 0 6 _ :=
    .node (q := 0) rfl (.cons (.leaf (n := 6) (by decide)) .nil)
  have hlevel : cfg.IsPiece slip.toList (.goal .level) 0 slip.toList.length _ :=
    isPiece_level_iff.mpr ⟨_, rfl, .cons (by decide) htext (.single (by decide) hlist)⟩
  exact read_of_isPiece hlevel rfl none

/-- The rules of the first item are the first that cannot be made. -/
theorem evaluated_slip : (match (compiler.compile slipNodes order 0).1 with
    | .ok _ => false
    | .error f => decide (f.span = some ⟨2, 19, some (2, 21)⟩) && match f.cause with
      | .structural (.undeclaredProperty field type) => field == "by" && type == item.fqn
      | _ => false) = true := by
  decide +kernel

end Shop

end Markup

end Covenant
