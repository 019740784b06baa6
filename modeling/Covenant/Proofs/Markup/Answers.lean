import Covenant.Proofs.Markup.Ruled

/-!
How the steps of making a template's rules end.

* `Occurs`: a node stands in a level or, at some depth, in a block of it.
* `Compiler.Refused`: why making the rules of nodes may fail: a misfit, or a node whose place
  cannot be told where it is asked for (`Stray`).
* `Compiler.Answers`: a step marks the expressions among its nodes if it succeeds, and fails
  for no other reason than these.
* `Compiler.answers_ruleOf`, `Compiler.answers_addLevel`: the steps of nodes and of levels.
-/

namespace Covenant

/-! ### Faults of misfits -/

/-- A fault that tells how a template does not fit its schema, or a format its notation. -/
def Fault.IsMisfit (f : Fault) : Prop :=
  (∃ x, f.cause = .structural x) ∨ ∃ x, f.cause = .format x

/-- A refused amount format gives a fault of the format. -/
theorem AmountFormat.format_of_error {format : String} {f : Fault}
    (h : AmountFormat.ofString format = .error f) : ∃ x, f.cause = .format x := by
  unfold AmountFormat.ofString at h
  split at h
  · cases h
    exact ⟨_, rfl⟩
  · split at h
    · cases h
      exact ⟨_, rfl⟩
    · cases h

/-- A refused date format gives a fault of the format. -/
theorem DateFormat.format_of_error {format : String} {f : Fault}
    (h : DateFormat.ofString format = .error f) : ∃ x, f.cause = .format x := by
  unfold DateFormat.ofString at h
  split at h
  · cases h
    exact ⟨_, rfl⟩
  · split at h
    · cases h
      exact ⟨_, rfl⟩
    · split at h
      · cases h
      · cases h
        exact ⟨_, rfl⟩

/-- A refused monetary format gives a fault of the format. -/
theorem MonetaryFormat.format_of_error {format : String} {f : Fault}
    (h : MonetaryFormat.ofString format = .error f) : ∃ x, f.cause = .format x := by
  rcases Outcome.bind_eq_error.mp h with h | ⟨amount, _, h⟩
  · exact AmountFormat.format_of_error h
  · simp only at h
    split at h
    · cases h
    · cases h
      exact ⟨_, rfl⟩

/-- **A format that has no rule** is not in the notation of its type. -/
theorem Formatted.format_of_error {k : Formatted} {format : String} {f : Fault}
    (h : k.rule format = .error f) : ∃ x, f.cause = .format x := by
  cases k with
  | date =>
    rcases Outcome.bind_eq_error.mp h with h | ⟨_, _, h⟩
    · exact DateFormat.format_of_error h
    · cases h
  | amount =>
    rcases Outcome.bind_eq_error.mp h with h | ⟨_, _, h⟩
    · exact AmountFormat.format_of_error h
    · cases h
  | monetary =>
    rcases Outcome.bind_eq_error.mp h with h | ⟨_, _, h⟩
    · exact MonetaryFormat.format_of_error h
    · cases h

namespace Markup

/-! ### Nodes in a template -/

/-- A node stands in a level, or in a level of a block in it. -/
inductive Occurs (n : Node) : List Node → Prop where
  | here {nodes : List Node} (h : n ∈ nodes) : Occurs n nodes
  | within {nodes nested : List Node} {kind : BlockKind} {field : String} {place : Text.Position}
      (h : Node.block kind field nested place ∈ nodes) (hn : Occurs n nested) : Occurs n nodes

/-- A node that occurs among some nodes occurs among more. -/
theorem Occurs.mono {n : Node} {nodes nodes' : List Node} (h : Occurs n nodes)
    (hsub : nodes ⊆ nodes') : Occurs n nodes' := by
  cases h with
  | here h => exact .here (hsub h)
  | within h hn => exact .within (hsub h) hn

/-- A node in a block stands where the block does. -/
theorem Occurs.of_block {n : Node} {kind : BlockKind} {field : String} {nested nodes : List Node}
    {place : Text.Position} (h : Occurs (.block kind field nested place) nodes)
    (hn : Occurs n nested) : Occurs n nodes := by
  induction h with
  | here h => exact .within h hn
  | within h _ ih => exact .within h ih

/-- Occurring in two runs of nodes is occurring in one of them. -/
theorem occurs_append {n : Node} {ns ms : List Node} :
    Occurs n (ns ++ ms) ↔ Occurs n ns ∨ Occurs n ms := by
  constructor
  · rintro (h | ⟨h, hn⟩)
    · exact (List.mem_append.mp h).imp .here .here
    · exact (List.mem_append.mp h).imp (.within · hn) (.within · hn)
  · rintro (h | h)
    · exact h.mono (List.subset_append_left _ _)
    · exact h.mono (List.subset_append_right _ _)

/-- Nodes that are no texts and stand in one level stand in another. -/
def Covers (nodes nodes' : List Node) : Prop :=
  ∀ n, (∀ body last place, n ≠ .text body last place) → Occurs n nodes → Occurs n nodes'

theorem covers_of_subset {nodes nodes' : List Node} (h : nodes ⊆ nodes') : Covers nodes nodes' :=
  fun _ _ hn => hn.mono h

/-- There is an expression in a level, at some depth. -/
def Expressive (nodes : List Node) : Prop :=
  ∃ body place, Occurs (.expression body place) nodes

theorem expressive_append {ns ms : List Node} :
    Expressive (ns ++ ms) ↔ Expressive ns ∨ Expressive ms := by
  simp only [Expressive, occurs_append, exists_or]

/-- A node that is neither an expression nor a block has no expressions in it. -/
theorem not_expressive_leaf {n : Node} (hexpression : ∀ body place, n ≠ .expression body place)
    (hblock : ∀ kind field nested place, n ≠ .block kind field nested place) :
    ¬ Expressive [n] := by
  rintro ⟨body, place, h | ⟨h, _⟩⟩
  · exact hexpression _ _ (List.mem_singleton.mp h).symm
  · exact hblock _ _ _ _ (List.mem_singleton.mp h).symm

/-- A block is expressive exactly if what it encloses is. -/
theorem expressive_block {kind : BlockKind} {field : String} {nested : List Node}
    {place : Text.Position} : Expressive [.block kind field nested place] ↔ Expressive nested := by
  constructor
  · rintro ⟨body, place, h | ⟨h, hn⟩⟩
    · cases List.mem_singleton.mp h
    · cases List.mem_singleton.mp h
      exact ⟨body, place, hn⟩
  · rintro ⟨body, place, h⟩
    exact ⟨body, place, .within (List.mem_singleton_self _) h⟩

/-- A text in front of a level brings nothing but a text. -/
theorem occurs_lead {start : String} {nodes led : List Node} (h : lead start nodes = .ok led)
    {n : Node} (hn : ∀ body last place, n ≠ .text body last place) :
    Occurs n led ↔ Occurs n nodes := by
  have htext : ∀ body last place, ¬ Occurs n [.text body last place] := by
    rintro body last place (h | ⟨h, _⟩)
    · exact hn _ _ _ (List.mem_singleton.mp h)
    · cases List.mem_singleton.mp h
  rcases lead_cases h with ⟨_, rfl⟩ | ⟨body, last, place, rest, rfl, rfl⟩ | ⟨place, rfl⟩
  · rfl
  · rw [← List.singleton_append, occurs_append, ← List.singleton_append (l := rest), occurs_append]
    simp only [htext, false_or]
  · rw [← List.singleton_append, occurs_append]
    simp only [htext, false_or]

/-- The leading line feed of a level makes no expression. -/
theorem expressive_lead {start : String} {nodes led : List Node} (h : lead start nodes = .ok led) :
    Expressive led ↔ Expressive nodes :=
  exists₂_congr fun _ _ => occurs_lead h fun _ _ _ h => nomatch h

/-- What stands in a block covers no more than the block. -/
theorem covers_block (kind : BlockKind) (field : String) (nested : List Node)
    (place : Text.Position) : Covers nested [.block kind field nested place] :=
  fun _ _ hn => .within (List.mem_singleton_self _) hn

/-- A node of a foreign kind whose place cannot be told where it is asked for: by a report,
which takes a line to go with a column, or by the text in front of the items of a list. -/
inductive Stray (s : Settings) (nodes : List Node) : Prop where
  | column {kind : String} {field : Option String} {line : Nat}
      (h : Occurs (.foreign kind field (some line) none) nodes)
  | first {style : ListStyle} {list kind : String} {field : Option String}
      {line column : Option Nat} {rest : List Node} {place : Text.Position}
      (h : Occurs (.block (.list style) list (.foreign kind field line column :: rest) place) nodes)
      (hplace : line = none ∨ column = none) (hlead : (style.leads s).2 ≠ "")

/-- A stray prefix among some nodes is one among all that cover them. -/
theorem Stray.mono {s : Settings} {nodes nodes' : List Node} (h : Stray s nodes)
    (hcovers : Covers nodes nodes') : Stray s nodes' := by
  cases h with
  | column h => exact .column (hcovers _ (fun _ _ _ h => nomatch h) h)
  | first h hplace hlead => exact .first (hcovers _ (fun _ _ _ h => nomatch h) h) hplace hlead

namespace Compile

def Results {α : Type} (x : Compile α) (a : α) : Prop :=
  ∃ s s', x.exec s = (.ok a, s')

theorem Yields.result {α : Type} {x : Compile α} {P : α → Prop}
    (h : Yields (fun _ _ => True) x fun _ a => P a) {a : α} (ha : Results x a) : P a :=
  have ⟨s, s', hexec⟩ := ha
  (h s s' a hexec).2 _ (.refl _)

end Compile

open Compile

namespace Compiler

/-- Why making the rules of nodes fails: a misfit, or a stray node. -/
def Refused (c : Compiler) (nodes : List Node) (f : Fault) : Prop :=
  f.IsMisfit ∨ f.cause = .undefined ∧ Stray c.settings nodes

/-- A fault answered for some nodes is answered for all that cover them. -/
theorem Refused.mono {c : Compiler} {nodes nodes' : List Node} {f : Fault}
    (h : c.Refused nodes f) (hcovers : Covers nodes nodes') : c.Refused nodes' f :=
  h.imp_right fun ⟨hcause, hstray⟩ => ⟨hcause, hstray.mono hcovers⟩

/-- **How a step answers for nodes**: if it succeeds, it marks a set as one with expressions
exactly if there is one among the nodes; and if it fails, the nodes are refused. -/
def Answers {α : Type} (c : Compiler) (x : Compile α) (nodes : List Node) : Prop :=
  ∀ s, match x.exec s with
    | (.ok _, s') => s'.rules.expressions = true ↔ s.rules.expressions = true ∨ Expressive nodes
    | (.error f, _) => c.Refused nodes f

variable {α β : Type} {c : Compiler}

/-! ### Steps one after the other -/

theorem not_expressive_nil : ¬ Expressive [] := by
  rintro ⟨_, _, h⟩
  cases h with
  | here h => cases h
  | within h => cases h

theorem answers_pure (a : α) : c.Answers (pure a) [] :=
  fun _ => ⟨.inl, fun h => h.resolve_right not_expressive_nil⟩

/-- A fault that answers for the nodes may be raised. -/
theorem answers_throw {f : Fault} {nodes : List Node} (h : c.Refused nodes f) :
    c.Answers (throw f : Compile α) nodes :=
  fun _ => h

/-- Failing because of a node whose place is known, or that has no line either. -/
theorem answers_refuse {n : Node} {span : Option Span} (hspan : n.span = .ok span)
    {cause : Fault.Cause}
    (hcause : (∃ x, cause = .structural x) ∨ ∃ x, cause = .format x) (nodes : List Node) :
    c.Answers (c.refuse n cause : Compile α) nodes := by
  unfold refuse
  rw [hspan]
  exact fun s => .inl hcause

/-- **Steps one after the other** answer for the nodes of both. -/
theorem Answers.bind {x : Compile α} {f : α → Compile β} {ns ms : List Node}
    (hx : c.Answers x ns) (hf : ∀ a, Results x a → c.Answers (f a) ms) :
    c.Answers (x >>= f) (ns ++ ms) := by
  intro s
  have hx := hx s
  rw [exec_bind]
  cases hexec : x.exec s with
  | mk o s₁ =>
    rw [hexec] at hx
    cases o with
    | error e => exact hx.mono (covers_of_subset (List.subset_append_left _ _))
    | ok a =>
      have hf := hf a ⟨s, s₁, hexec⟩ s₁
      simp only
      cases hexec' : (f a).exec s₁ with
      | mk o' s₂ =>
        rw [hexec'] at hf
        cases o' with
        | error e => exact hf.mono (covers_of_subset (List.subset_append_right _ _))
        | ok b =>
          change s₁.rules.expressions = true ↔ _ at hx
          change s₂.rules.expressions = true ↔ _ at hf
          change s₂.rules.expressions = true ↔ _
          rw [hf, hx, expressive_append, or_assoc]

/-- A step that is followed by steps for no nodes. -/
theorem Answers.before {x : Compile α} {f : α → Compile β} {nodes : List Node}
    (hx : c.Answers x nodes) (hf : ∀ a, Results x a → c.Answers (f a) []) :
    c.Answers (x >>= f) nodes :=
  List.append_nil nodes ▸ hx.bind hf

/-- What is made of a step's result. -/
theorem Answers.map {x : Compile α} {nodes : List Node} (hx : c.Answers x nodes) (g : α → β) :
    c.Answers (x >>= fun a => pure (g a)) nodes :=
  hx.before fun a _ => answers_pure (g a)

/-! ### Fitting the schema -/

section Steps

variable {d : SchemaType} {stem name : String} {n : Node} {span : Option Span}

/-- A property that is missing is answered at the node's own span. -/
theorem answers_property (hspan : n.span = .ok span) (lv : Level) (field : String) :
    c.Answers (c.property lv n field) [] := by
  unfold property
  split
  · exact answers_pure _
  · exact answers_refuse hspan (.inl ⟨_, rfl⟩) []

/-- A condition that is not Boolean is answered at the node's own span. -/
theorem answers_booleanProperty (hspan : n.span = .ok span) (lv : Level) (field : String) :
    c.Answers (c.booleanProperty lv n field) [] := by
  unfold booleanProperty
  refine (answers_property hspan lv field).bind fun p _ => ?_
  split
  · exact answers_refuse hspan (.inl ⟨_, rfl⟩) []
  · exact answers_pure _

/-- The type of a property is there, unless it is primitive. -/
theorem answers_blockType (hr : Resolved c.catalog.types) (hd : ∃ e ∈ c.catalog.types, e.2 = d)
    {p : Property} (hp : p ∈ d.properties) (hspan : n.span = .ok span) (kind : BlockKind) :
    c.Answers (c.blockType n kind p) [] := by
  unfold blockType
  by_cases hcomplex : (p.isPrimitive || p.relationship) = true
  · rw [if_pos hcomplex]
    exact (answers_refuse hspan (.inl ⟨_, rfl⟩) []).bind fun _ ⟨s, s', hexec⟩ => by
      unfold refuse at hexec
      rw [hspan] at hexec
      cases hexec
  · rw [if_neg hcomplex]
    have hprimitive : p.isPrimitive = false := by
      simp only [Bool.or_eq_true, not_or, Bool.not_eq_true] at hcomplex
      exact hcomplex.1
    obtain ⟨e, he, rfl⟩ := hd
    obtain ⟨b, hb⟩ := Table.exists_find (hr.targets e he p hp hprimitive)
    have hget : c.catalog.get p.type = .ok b := by
      rw [Catalog.get, hb]
    rw [hget]
    refine (answers_pure b).bind fun _ _ => ?_
    split
    · exact (answers_refuse hspan (.inl ⟨_, rfl⟩) []).bind fun _ _ => answers_pure _
    · exact answers_pure _

/-! ### Adding rules -/

/-- A name that is taken is answered at the node's own span. -/
theorem answers_addRule (hspan : ∀ n ∈ n?, ∃ span, Node.span n = .ok span) (r : Rule) :
    c.Answers (c.addRule n? r) [] := by
  intro s
  unfold addRule
  rw [exec_bind]
  have hget : (get : Compile Progress).exec s = (.ok s, s) := rfl
  rw [hget]
  simp only
  cases s.rules.obstacle? r with
  | none => exact answers_pure (c := c) () s
  | some cause =>
    cases n? with
    | none => exact .inl (.inl ⟨_, rfl⟩)
    | some n =>
      obtain ⟨span, hspan⟩ := hspan n rfl
      exact answers_refuse hspan (.inl ⟨_, rfl⟩) [] s

/-- A refused format is answered at the node's own span. -/
theorem answers_formatTarget (hspan : n.span = .ok span) (p : Property) (format : String) :
    c.Answers (c.formatTarget n p format) [] := by
  unfold formatTarget
  split
  · exact answers_refuse hspan (.inl ⟨_, rfl⟩) []
  · split
    · rename_i f hrule
      exact answers_refuse hspan (.inr (Formatted.format_of_error hrule)) []
    · rename_i r _
      intro s
      change RuleSet.expressions (if s.rules.has r.name then s
        else { s with rules := { s.rules with rules := s.rules.rules ++ [r] } } : Progress).rules
          = true ↔ _
      split <;> exact answers_pure (c := c) () s

/-! ### Rules of single nodes -/

/-- Everything a binding can be refused for is answered at its span. -/
theorem answers_bindingRule (hspan : n.span = .ok span) (lv : Level) (field : String)
    (format : Option String) : c.Answers (c.bindingRule n field format lv name) [] := by
  unfold bindingRule
  refine (answers_property hspan lv field).bind fun p _ => ?_
  cases format with
  | none => exact (answers_pure p.ruleName).map _
  | some format => exact (answers_formatTarget hspan p format).map _

/-- Everything a conditional can be refused for is answered at its span. -/
theorem answers_shownRule (hspan : n.span = .ok span) (lv : Level) (field whenTrue : String) :
    c.Answers (c.shownRule n field whenTrue lv name) [] := by
  unfold shownRule
  refine (answers_booleanProperty hspan lv field).bind fun _ _ => ?_
  split
  · exact (answers_refuse hspan (.inl ⟨_, rfl⟩) []).map _
  · exact answers_pure _

/-- The same for a conditional with an alternative. -/
theorem answers_choiceRule (hspan : n.span = .ok span) (lv : Level)
    (field whenTrue whenFalse : String) :
    c.Answers (c.choiceRule n field whenTrue whenFalse lv name) [] := by
  unfold choiceRule
  refine (answers_booleanProperty hspan lv field).bind fun _ _ => ?_
  by_cases htexts : whenTrue = whenFalse
  · rw [if_pos htexts]
    exact (answers_refuse hspan (.inl ⟨_, rfl⟩) []).map _
  · rw [if_neg htexts]
    exact answers_pure _

/-- An expression is refused for being one. -/
theorem answers_expressionRule (body name : String) (place : Text.Position) :
    c.Answers (expressionRule body name) [.expression body place] := by
  intro s
  exact iff_of_true rfl (.inr ⟨body, place, .here (List.mem_singleton_self _)⟩)

/-! ### Levels -/

theorem answers_levelParams (d : SchemaType) (bound : List (String × String)) :
    c.Answers (c.levelParams d bound) [] := by
  have hissue : c.Answers c.issue [] := fun s => answers_pure (c := c) () s
  unfold levelParams
  dsimp only
  split
  · simp only [pure_bind]
    exact hissue.map _
  · exact answers_pure _

end Steps

/-- The rules of nodes are made, at every level of a type of the catalog, by steps that
answer for them. -/
def AnswersAll (c : Compiler) (nodes : List Node) : Prop :=
  ∀ n ∈ nodes, ∀ d, (∃ e ∈ c.catalog.types, e.2 = d) → ∀ stem name,
    c.Answers (c.ruleOf n ⟨d, stem⟩ name) [n]

variable {d : SchemaType} {stem : String} {nodes : List Node}

/-- Steps that answer for some nodes answer for others that cover them and have expressions
where these do. -/
theorem Answers.congr {x : Compile α} {ns ms : List Node} (h : c.Answers x ns)
    (hcovers : Covers ns ms) (hexpressive : Expressive ns ↔ Expressive ms) : c.Answers x ms := by
  intro s
  have h := h s
  cases hexec : x.exec s with
  | mk o s' =>
    rw [hexec] at h
    cases o with
    | error f => exact h.mono hcovers
    | ok a => exact h.trans (or_congr_right hexpressive)

/-- A leaf of a template answers like the steps for no nodes. -/
theorem Answers.leaf {x : Compile α} (h : c.Answers x []) {n : Node}
    (hexpression : ∀ body place, n ≠ .expression body place)
    (hblock : ∀ kind field nested place, n ≠ .block kind field nested place) :
    c.Answers x [n] :=
  h.congr (covers_of_subset (List.nil_subset _))
    (iff_of_false not_expressive_nil (not_expressive_leaf hexpression hblock))

/-- The rule of a node is added under its place, if it has one at all. -/
theorem span_of_answers {n : Node} {lv : Level} {name : String} {r : Rule}
    (hr : Results (c.ruleOf n lv name) r) : ∃ span, n.span = .ok span := by
  cases n with
  | foreign kind field line column =>
    obtain ⟨s, s', hexec⟩ := hr
    obtain ⟨f, hf⟩ := c.exec_refuse (α := Rule) (.foreign kind field line column)
      (.structural (.unknownNode kind)) s
    rw [ruleOf, hf] at hexec
    cases hexec
  | _ => exact ⟨_, rfl⟩

/-- A member is answered for by its node. -/
theorem answers_addMember {n : Node} (h : ∀ name, c.Answers (c.ruleOf n ⟨d, stem⟩ name) [n])
    (i : Nat) : c.Answers (c.addMember ⟨d, stem⟩ ⟨n, c.ruleOf n⟩ i) [n] := by
  unfold addMember
  split
  · exact (answers_pure _).leaf (fun _ _ => by simp_all) (fun _ _ _ _ => by simp_all)
  · refine (h _).before fun r hr => ?_
    refine (answers_addRule (fun m hm => ?_) r).map _
    cases hm
    exact span_of_answers hr

/-- The members of a level are answered for by the nodes of the level. -/
theorem answers_addMembers (h : ∀ n ∈ nodes, ∀ name, c.Answers (c.ruleOf n ⟨d, stem⟩ name) [n])
    (start : Nat) :
    c.Answers (((c.membersOf nodes).zipIdx start).filterMapM fun (m, i) => c.addMember ⟨d, stem⟩ m i)
      nodes := by
  induction nodes generalizing start with
  | nil => exact answers_pure _
  | cons n ns ih =>
    rw [membersOf, List.zipIdx_cons, List.filterMapM_cons]
    refine (answers_addMember (h n (by simp)) start).bind fun part _ => ?_
    have hrest := ih (fun m hm => h m (by simp [hm])) (start + 1)
    cases part with
    | none => exact hrest
    | some part => exact hrest.map _

/-- **The steps of a level** answer for its nodes. -/
theorem answers_addLevel
    (h : ∀ n ∈ nodes, ∀ name, c.Answers (c.ruleOf n ⟨d, stem⟩ name) [n]) :
    c.Answers (c.addLevel ⟨d, stem⟩ (c.membersOf nodes)) nodes := by
  unfold addLevel
  refine (answers_addMembers h 0).before fun parts _ => ?_
  have hrest : ∀ fields, c.Answers (do
      let params ← c.levelParams d fields
      c.addRule none
        { name := stem, alternatives := [parts.map fun e => .rule e.1]
          action := some ⟨"object", params⟩, comment := some d.fqn }) [] :=
    fun fields => (answers_levelParams d fields).bind fun params _ => answers_addRule (by simp) _
  split
  · exact (answers_throw (.inl (.inl ⟨_, rfl⟩))).before fun _ _ => hrest _
  · exact hrest _

/-- A text in front of a level is missed only for a foreign node without a place. -/
theorem refused_of_lead {start : String} {f : Fault} (h : lead start nodes = .error f) :
    f.cause = .undefined ∧ start ≠ "" ∧ ∃ kind field line column rest,
      nodes = .foreign kind field line column :: rest ∧ (line = none ∨ column = none) := by
  unfold lead leadMembers at h
  by_cases hstart : start.isEmpty = true
  · rw [if_pos hstart] at h
    cases h
  · rw [if_neg hstart] at h
    have hne : start ≠ "" := fun hnil => hstart (by simp [hnil])
    cases nodes with
    | nil => cases h
    | cons first rest =>
      cases first with
      | foreign kind field line column =>
        cases line with
        | none =>
          cases h
          exact ⟨rfl, hne, kind, field, none, column, rest, rfl, .inl rfl⟩
        | some line =>
          cases column with
          | none =>
            cases h
            exact ⟨rfl, hne, kind, field, some line, none, rest, rfl, .inr rfl⟩
          | some column => cases h
      | _ => cases h

/-- The level of a list answers for it, behind what stands in front of its items. -/
theorem answers_addLedLevel (hd : ∃ e ∈ c.catalog.types, e.2 = d) (h : c.AnswersAll nodes)
    (start : String) {style : ListStyle} (hstart : start ≠ "" → (style.leads c.settings).2 ≠ "")
    (field : String) (place : Text.Position) :
    c.Answers (c.addLedLevel ⟨d, stem⟩ start (c.membersOf nodes))
      [.block (.list style) field nodes place] := by
  unfold addLedLevel
  rw [leadMembers_membersOf]
  cases hled : lead start nodes with
  | error f =>
    obtain ⟨hcause, hne, kind, _, line, column, rest, rfl, hplace⟩ := refused_of_lead hled
    exact answers_throw (.inr ⟨hcause,
      .first (.here (List.mem_singleton_self _)) hplace (hstart hne)⟩)
  | ok led =>
    have hlevel : c.Answers (c.addLevel ⟨d, stem⟩ (c.membersOf led)) led := by
      refine answers_addLevel fun n hn name => ?_
      rcases mem_of_lead hled hn with hn | ⟨body, last, place, rfl⟩
      · exact h n hn d hd stem name
      · exact (answers_pure _).leaf (fun _ _ h => nomatch h) fun _ _ _ _ h => nomatch h
    refine hlevel.congr (fun n htext hn => ?_) ((expressive_lead hled).trans expressive_block.symm)
    exact covers_block _ _ _ _ n htext ((occurs_lead hled htext).mp hn)

/-! ### Blocks -/

section Block

variable {field name : String} {place : Text.Position}

/-- A nested block answers for itself and, by the induction, for what it encloses. -/
theorem answers_nestedRule (hr : Resolved c.catalog.types)
    (hd : ∃ e ∈ c.catalog.types, e.2 = d) (h : c.AnswersAll nodes) {kind : BlockKind} :
    c.Answers (c.nestedRule (.block kind field nodes place) kind field (c.membersOf nodes)
      ⟨d, stem⟩ name) [.block kind field nodes place] := by
  unfold nestedRule
  refine (answers_property rfl _ field).bind fun p hp => ?_
  have hp := mem_of_property ((yields_property _ field).result hp)
  refine (answers_blockType hr hd hp rfl kind).bind fun e he => ?_
  have he := ((yields_blockType _ kind p).result he).found
  have hlevel : c.Answers (c.addLevel ⟨e, field⟩ (c.membersOf nodes)) nodes :=
    answers_addLevel fun n hn name => h n hn e ⟨_, Table.mem_of_find he, rfl⟩ field name
  exact (hlevel.map _).congr (covers_block _ _ _ _) expressive_block.symm

/-- A list answers for itself and, by the induction, for its items' nodes. -/
theorem answers_listRule (hr : Resolved c.catalog.types)
    (hd : ∃ e ∈ c.catalog.types, e.2 = d) (h : c.AnswersAll nodes) (style : ListStyle) :
    c.Answers (c.listRule (.block (.list style) field nodes place) style field (c.membersOf nodes)
      ⟨d, stem⟩ name) [.block (.list style) field nodes place] := by
  unfold listRule
  refine (answers_property rfl _ field).bind fun p hp => ?_
  have hp := mem_of_property ((yields_property _ field).result hp)
  have hlevels : c.Answers (do
      let type ← c.blockType (.block (.list style) field nodes place) (.list style) p
      c.addLedLevel ⟨type, field ++ "First"⟩ (style.leads c.settings).1 (c.membersOf nodes)
      c.addLedLevel ⟨type, field⟩ (style.leads c.settings).2 (c.membersOf nodes)
      return itemsRule name (field ++ "First") field (comment ⟨d, stem⟩ field))
      [.block (.list style) field nodes place] := by
    refine (answers_blockType hr hd hp rfl (.list style)).bind fun e he => ?_
    have he := ((yields_blockType _ (.list style) p).result he).found
    have hled := fun stem start hstart => @answers_addLedLevel c e stem nodes
      ⟨_, Table.mem_of_find he, rfl⟩ h start style hstart field place
    -- the nodes are gone through twice, once for each level
    have htwice := (hled (field ++ "First") (style.leads c.settings).1 leads_ne).bind fun _ _ =>
      (hled field (style.leads c.settings).2 id).map fun _ =>
        itemsRule name (field ++ "First") field (comment ⟨d, stem⟩ field)
    refine htwice.congr (covers_of_subset ?_) ?_
    · simp
    · rw [expressive_append, or_self]
  by_cases harray : p.array = true
  · rw [if_pos harray]
    exact hlevels
  · rw [if_neg harray]
    exact (answers_refuse rfl (.inl ⟨_, rfl⟩) []).bind fun _ _ => hlevels

end Block

mutual

/-- **The steps of a node** answer for it. -/
theorem answers_ruleOf (hr : Resolved c.catalog.types) {d : SchemaType}
    (hd : ∃ e ∈ c.catalog.types, e.2 = d) (stem name : String) :
    ∀ n, c.Answers (c.ruleOf n ⟨d, stem⟩ name) [n]
  | .text .. => (answers_pure _).leaf (fun _ _ h => nomatch h) fun _ _ _ _ h => nomatch h
  | .binding field format _ => (answers_bindingRule rfl _ field format).leaf
      (fun _ _ h => nomatch h) fun _ _ _ _ h => nomatch h
  | .formatted field format _ => (answers_bindingRule rfl _ field (some format)).leaf
      (fun _ _ h => nomatch h) fun _ _ _ _ h => nomatch h
  | .shown field whenTrue _ => (answers_shownRule rfl _ field whenTrue).leaf
      (fun _ _ h => nomatch h) fun _ _ _ _ h => nomatch h
  | .choice field whenTrue whenFalse _ => (answers_choiceRule rfl _ field whenTrue whenFalse).leaf
      (fun _ _ h => nomatch h) fun _ _ _ _ h => nomatch h
  | .block .clause _ nodes _ => answers_nestedRule hr hd (answers_membersOf hr nodes)
  | .block .within _ nodes _ => answers_nestedRule hr hd (answers_membersOf hr nodes)
  | .block (.list style) _ nodes _ => answers_listRule hr hd (answers_membersOf hr nodes) style
  | .expression body place => answers_expressionRule body name place
  | .foreign kind field line column => by
    cases line with
    | none => exact answers_refuse rfl (.inl ⟨_, rfl⟩) _
    | some line =>
      cases column with
      | none =>
        exact answers_throw (.inr ⟨rfl, .column (.here (List.mem_singleton_self _))⟩)
      | some column => exact answers_refuse rfl (.inl ⟨_, rfl⟩) _

theorem answers_membersOf (hr : Resolved c.catalog.types) : ∀ nodes, c.AnswersAll nodes
  | [] => fun _ hn => nomatch hn
  | n :: ns => fun m hm d hd stem name =>
    match List.mem_cons.mp hm with
    | .inl h => h ▸ answers_ruleOf hr hd stem name n
    | .inr h => answers_membersOf hr ns m h d hd stem name

end

/-! ### Whole templates -/

/-- **The rules of the nodes of a template** are marked if there is an expression among the
nodes, or the nodes are refused. -/
theorem answers_nodeRules (hr : Resolved c.catalog.types) (hd : ∃ e ∈ c.catalog.types, e.2 = d)
    (nodes : List Node) (issued : Nat) :
    match (c.nodeRules nodes d issued).1 with
    | .ok own => own.expressions = true ↔ Expressive nodes
    | .error f => c.Refused nodes f := by
  have hlevel : c.Answers (c.addLevel ⟨d, topStem⟩ (c.membersOf nodes)) nodes :=
    answers_addLevel fun n hn name => answers_membersOf hr nodes n hn d hd topStem name
  have hstart := hlevel { issued }
  rw [nodeRules_eq]
  cases hexec : (c.addLevel ⟨d, topStem⟩ (c.membersOf nodes)).exec { issued } with
  | mk o s =>
    rw [hexec] at hstart
    cases o with
    | error f => exact hstart
    | ok a => exact hstart.trans (or_iff_right Bool.false_ne_true)

end Compiler

end Markup

end Covenant
