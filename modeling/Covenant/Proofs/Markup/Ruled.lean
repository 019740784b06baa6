import Covenant.Proofs.Markup.Completeness
import Covenant.Proofs.Schema.FormatRules

/-!
The rules that a template has in a rule set.

* `Ruled`: a rule set has the rule of a node and the rules of all levels in it;
  `RuledLevel`: the rule of a level and those of its nodes.
* `Compile.Yields`: what holds, after a step that succeeds, in every set with the rules that
  there are by then.
* `Compiler.makes_ruleOf`: the rules of a node, one case for each kind of node.
* `Compiler.joined_of_compile`: the rules made for a template rule its nodes, and stand beside
  the rules of the types.
* `Compiler.Joined.typedRules`, `Compiler.Joined.formatRules`: there they leave the rules of
  types and formats as these give them.
-/

namespace Covenant

namespace RuleSet

def Holds (s : RuleSet) (r : Rule) : Prop :=
  s.find? r.name = some r

theorem holds_of_find {s : RuleSet} {name : String} {r : Rule} (h : s.find? name = some r) :
    s.Holds r := by
  obtain rfl : r.name = name := by simpa using List.find?_some h
  exact h

def Extends (s t : RuleSet) : Prop :=
  ∀ r, t.Holds r → s.Holds r

/-- Every rule set extends itself. -/
theorem Extends.refl (s : RuleSet) : s.Extends s :=
  fun _ h => h

/-- Extension of rule sets is transitive. -/
theorem Extends.trans {s t u : RuleSet} (h : s.Extends t) (h' : t.Extends u) : s.Extends u :=
  fun r hr => h r (h' r hr)

/-- Rules that come later hide none of those that are there. -/
theorem extends_append {s t : RuleSet} {new : List Rule} (h : t.rules = s.rules ++ new) :
    t.Extends s := by
  intro r hr
  rw [Holds, find?] at hr ⊢
  rw [h, List.find?_append, hr]
  rfl

/-- A rule that comes last is found if its name was free. -/
theorem holds_append {s t : RuleSet} {r : Rule} (hname : r.name ∉ s.names)
    (h : t.rules = s.rules ++ [r]) : t.Holds r := by
  have hnone : s.rules.find? (fun q => q.name == r.name) = none := find_eq_none_iff.mpr hname
  rw [Holds, find?, h, List.find?_append, hnone]
  simp

end RuleSet

namespace Markup

/-! ### Rules of nodes and levels -/

/-- The nodes of a level that have rules, with the names of these. -/
def numbered (stem : String) (nodes : List Node) (start : Nat := 0) : List (String × Node) :=
  (nodes.zipIdx start).filterMap fun e =>
    if e.1.silent then none else some (stem ++ toString e.2, e.1)

/-- A node of a level that is not silent has a rule by its index. -/
theorem mem_numbered {stem : String} {nodes : List Node} {n : Node} {i : Nat}
    (hn : nodes[i]? = some n) (hsilent : n.silent = false) :
    (stem ++ toString i, n) ∈ numbered stem nodes :=
  List.mem_filterMap.mpr ⟨(n, i), List.mk_mem_zipIdx_iff_getElem?.mpr hn, by simp [hsilent]⟩

/-- What holds of texts and of the nodes of a level that have rules holds of all nodes of it. -/
theorem forall_of_numbered {P : Node → Prop} (htext : ∀ body last place, P (.text body last place))
    {stem : String} {nodes : List Node} (h : ∀ m ∈ numbered stem nodes, P m.2) :
    ∀ n ∈ nodes, P n := by
  intro n hn
  by_cases hsilent : n.silent = true
  · obtain ⟨last, place, rfl⟩ := Compiler.silent_iff.mp hsilent
    exact htext _ _ _
  · obtain ⟨i, hi⟩ := List.mem_iff_getElem?.mp hn
    exact h _ (mem_numbered hi (by simpa using hsilent))

/-- A level with a rule to read has a node that is not silent. -/
theorem exists_loud {stem : String} {nodes : List Node} (h : numbered stem nodes ≠ []) :
    ∃ n ∈ nodes, n.silent = false := by
  obtain ⟨m, hm⟩ := List.exists_mem_of_ne_nil _ h
  obtain ⟨⟨n, i⟩, he, hsome⟩ := List.mem_filterMap.mp hm
  have hn := List.mem_iff_getElem?.mpr ⟨i, List.mk_mem_zipIdx_iff_getElem?.mp he⟩
  by_cases hsilent : n.silent = true
  · simp [hsilent] at hsome
  · exact ⟨n, hn, by simpa using hsilent⟩

/-- The rule of a node that stands for another rule. -/
def referenceRule (name target comment : String) (cardinality : Cardinality) : Rule :=
  { name, alternatives := [[.rule target cardinality]], comment := some comment }

/-- The rule of a node that depends on a truth value. -/
def branchRule (comment whenTrue whenFalse name : String) : Rule :=
  let (alternatives, action) : List (List Symbol) × Action :=
    if whenFalse.isEmpty then ([[.literal whenTrue .optional]], ⟨"present", []⟩)
    else if whenTrue.isEmpty then ([[.literal whenFalse .optional]], ⟨"absent", []⟩)
    else ([[.literal whenTrue], [.literal whenFalse]],
      ⟨"equals", [⟨"value", .const whenTrue⟩]⟩)
  { name, alternatives, action := some action, comment := some comment }

/-- The rule of a list whose items have rules of these names. -/
def itemsRule (name firstStem stem comment : String) : Rule :=
  { name, alternatives := [[.rule firstStem, .rule stem .many]]
    action := some ⟨"concat", [⟨"first", .ref firstStem⟩, ⟨"rest", .ref stem⟩]⟩
    comment := some comment }

/-- The name and node of each part that binds a field. -/
def boundParts (parts : List (String × Node)) : List (String × String) :=
  parts.filterMap fun e => e.2.field?.map (·, e.1)

/-- The parameters by which the rule of a level builds a value with an identifier. -/
def levelArguments (d : SchemaType) (id : String) (parts : List (String × Node)) :
    List ActionParam :=
  ⟨classKey, .const d.fqn⟩ :: (d.identifier?.map fun key => ⟨key, .const id⟩).toList
    ++ d.properties.filterMap fun p =>
      if d.identifier? = some p.name then none
      else ((boundParts parts).lookup p.name).map fun name => ⟨p.name, .ref name⟩

def levelRule (d : SchemaType) (stem id : String) (parts : List (String × Node)) : Rule :=
  { name := stem, alternatives := [parts.map fun e => .rule e.1]
    action := some ⟨"object", levelArguments d id parts⟩, comment := some d.fqn }

/-- A rule set has the rule of a level, which has something to read. -/
structure HasLevel (s : RuleSet) (d : SchemaType) (stem : String) (nodes : List Node) : Prop where
  filled : numbered stem nodes ≠ []
  rule : ∃ id, s.Holds (levelRule d stem id (numbered stem nodes))

/-- What the rule of a binding stands for: the rule of the property's type, or that of a
format. -/
def Target (p : Property) (format : Option String) (target : String) : Prop :=
  match format with
  | none => target = p.ruleName
  | some f => p.relationship = false ∧
      ∃ k r, Formatted.ofType? p.type = some k ∧ k.rule f = .ok r ∧ target = k.ruleName f

/-- The type that blocks for a property lay out. -/
structure LaidOut (c : Catalog) (p : Property) (e : SchemaType) : Prop where
  primitive : p.isPrimitive = false
  relationship : p.relationship = false
  found : c.types.find? p.type = some e
  enum : e.isEnum = false
  abstract : e.abstract = false

/-- **A rule set rules a node** if it has the rule of the node under its name, and the
rules of all levels in it. -/
inductive Ruled (c : Compiler) (s : RuleSet) : SchemaType → String → Node → Prop where
  | text {d : SchemaType} {name body : String} {last : Bool} {place : Text.Position}
      (h : s.Holds (Compiler.textRule body name)) : Ruled c s d name (.text body last place)
  | expression {d : SchemaType} {name body : String} {place : Text.Position}
      (h : s.Holds (referenceRule name anyRule ("expression " ++ body) .one)) :
      Ruled c s d name (.expression body place)
  | binding {d : SchemaType} {name field target : String} {format : Option String}
      {place : Text.Position} {p : Property} (hp : d.property? field = some p)
      (htarget : Target p format target)
      (h : s.Holds (referenceRule name target (d.fqn ++ "." ++ field) p.cardinality)) :
      Ruled c s d name (.binding field format place)
  | formatted {d : SchemaType} {name field format target : String} {place : Text.Position}
      {p : Property} (hp : d.property? field = some p) (htarget : Target p (some format) target)
      (h : s.Holds (referenceRule name target (d.fqn ++ "." ++ field) p.cardinality)) :
      Ruled c s d name (.formatted field format place)
  | shown {d : SchemaType} {name field whenTrue : String} {place : Text.Position} {p : Property}
      (hp : d.property? field = some p) (hboolean : p.type = "Boolean") (harray : p.array = false)
      (htext : whenTrue ≠ "") (h : s.Holds (branchRule (d.fqn ++ "." ++ field) whenTrue "" name)) :
      Ruled c s d name (.shown field whenTrue place)
  | choice {d : SchemaType} {name field whenTrue whenFalse : String} {place : Text.Position}
      {p : Property} (hp : d.property? field = some p) (hboolean : p.type = "Boolean")
      (harray : p.array = false) (htexts : whenTrue ≠ whenFalse)
      (h : s.Holds (branchRule (d.fqn ++ "." ++ field) whenTrue whenFalse name)) :
      Ruled c s d name (.choice field whenTrue whenFalse place)
  | nested {d e : SchemaType} {name field : String} {kind : BlockKind} {nodes : List Node}
      {place : Text.Position} {p : Property} (hkind : ∀ style, kind ≠ .list style)
      (hp : d.property? field = some p) (he : LaidOut c.catalog p e)
      (h : s.Holds (referenceRule name field
        (d.fqn ++ "." ++ field ++ " (" ++ kind.keyword ++ ")") p.cardinality))
      (hlevel : HasLevel s e field nodes)
      (hnodes : ∀ m ∈ numbered field nodes, Ruled c s e m.1 m.2) :
      Ruled c s d name (.block kind field nodes place)
  | list {d e : SchemaType} {name field : String} {style : ListStyle} {nodes first later : List Node}
      {place : Text.Position} {p : Property} (hp : d.property? field = some p)
      (harray : p.array = true) (he : LaidOut c.catalog p e)
      (h : s.Holds (itemsRule name (field ++ "First") field (d.fqn ++ "." ++ field)))
      (hfirst : lead (style.leads c.settings).1 nodes = .ok first)
      (hlater : lead (style.leads c.settings).2 nodes = .ok later)
      (hfirstLevel : HasLevel s e (field ++ "First") first)
      (hlaterLevel : HasLevel s e field later)
      (hfirsts : ∀ m ∈ numbered (field ++ "First") first, Ruled c s e m.1 m.2)
      (hlaters : ∀ m ∈ numbered field later, Ruled c s e m.1 m.2) :
      Ruled c s d name (.block (.list style) field nodes place)

/-- **A rule set rules a level** if it has its rule and rules its nodes. -/
structure RuledLevel (c : Compiler) (s : RuleSet) (d : SchemaType) (stem : String)
    (nodes : List Node) : Prop where
  level : HasLevel s d stem nodes
  nodes : ∀ m ∈ numbered stem nodes, Ruled c s d m.1 m.2

/-! ### Texts in front of levels -/

/-- A text is put in front of nodes as it is in front of what goes with them. -/
theorem leadMembers_map {α : Type} {node : α → Node} {ofText f : Node → α}
    (hnode : ∀ n, node (f n) = n)
    (htext : ∀ body last place, ofText (.text body last place) = f (.text body last place))
    (start : String) (nodes : List Node) :
    leadMembers node ofText start (nodes.map f) = (lead start nodes).map (List.map f) := by
  unfold lead leadMembers
  by_cases hstart : start.isEmpty = true
  · simp only [hstart, if_true]
    rfl
  · simp only [hstart, Bool.false_eq_true, if_false]
    cases nodes with
    | nil =>
      rw [List.map_nil, htext]
      rfl
    | cons n ns =>
      simp only [List.map_cons, hnode, id]
      cases n with
      | text body last place =>
        simp only [htext]
        rfl
      | foreign kind field line column =>
        simp only
        cases hplace : (Node.foreign kind field line column).place? with
        | none => rfl
        | some place =>
          simp only [htext]
          rfl
      | _ =>
        simp only [Node.place?, htext]
        rfl

/-- **A level with a text in front of it**: the text is empty, or goes in front of the first
text, or is a text of its own. -/
theorem lead_cases {start : String} {nodes led : List Node} (h : lead start nodes = .ok led) :
    (start = "" ∧ led = nodes) ∨
    (∃ body last place rest, nodes = .text body last place :: rest ∧
      led = .text (start ++ body) last place :: rest) ∨
    ∃ place, led = .text start false place :: nodes := by
  unfold lead leadMembers at h
  by_cases hstart : start.isEmpty = true
  · rw [if_pos hstart] at h
    exact .inl ⟨String.isEmpty_iff.mp hstart, (Except.ok.inj h).symm⟩
  · rw [if_neg hstart] at h
    cases nodes with
    | nil => exact .inr (.inr ⟨_, (Except.ok.inj h).symm⟩)
    | cons n ns =>
      simp only [id] at h
      split at h
      · exact .inr (.inl ⟨_, _, _, _, rfl, (Except.ok.inj h).symm⟩)
      · split at h
        · exact .inr (.inr ⟨_, (Except.ok.inj h).symm⟩)
        · cases h

/-- What a level with a text in front of it consists of. -/
theorem mem_of_lead {start : String} {nodes led : List Node} (h : lead start nodes = .ok led)
    {n : Node} (hn : n ∈ led) : n ∈ nodes ∨ ∃ body last place, n = .text body last place := by
  rcases lead_cases h with ⟨_, rfl⟩ | ⟨body, last, place, rest, rfl, rfl⟩ | ⟨place, rfl⟩
  · exact .inl hn
  · rcases List.mem_cons.mp hn with rfl | hn
    · exact .inr ⟨_, _, _, rfl⟩
    · exact .inl (List.mem_cons_of_mem _ hn)
  · rcases List.mem_cons.mp hn with rfl | hn
    · exact .inr ⟨_, _, _, rfl⟩
    · exact .inl hn

/-- A leading line feed is put into literal text only: nodes with a field stay the same. -/
theorem mem_of_lead_of_field {start : String} {nodes led : List Node}
    (h : lead start nodes = .ok led) {n : Node} (hn : n ∈ led) {field : String}
    (hfield : n.field? = some field) : n ∈ nodes := by
  rcases mem_of_lead h hn with hn | ⟨_, _, _, rfl⟩
  · exact hn
  · cases hfield

/-- What holds of texts and of the nodes of a level with a text in front of it holds of the
nodes without that. -/
theorem forall_of_lead {P : Node → Prop} (htext : ∀ body last place, P (.text body last place))
    {start : String} {nodes led : List Node} (hled : lead start nodes = .ok led)
    (h : ∀ n ∈ led, P n) : ∀ n ∈ nodes, P n := by
  intro n hn
  rcases lead_cases hled with ⟨_, rfl⟩ | ⟨body, last, place, rest, rfl, rfl⟩ | ⟨place, rfl⟩
  · exact h n hn
  · rcases List.mem_cons.mp hn with rfl | hn
    · exact htext _ _ _
    · exact h n (List.mem_cons_of_mem _ hn)
  · exact h n (List.mem_cons_of_mem _ hn)

/-- A text in front of a level binds nothing. -/
theorem fields_lead {start : String} {nodes led : List Node} (h : lead start nodes = .ok led) :
    led.filterMap Node.field? = nodes.filterMap Node.field? := by
  rcases lead_cases h with ⟨_, rfl⟩ | ⟨body, last, place, rest, rfl, rfl⟩ | ⟨place, rfl⟩ <;> rfl

/-- A text in front of a level is no node for a property. -/
theorem find_lead {start : String} {nodes led : List Node} (h : lead start nodes = .ok led)
    (field : String) : led.find? (fun n => n.field? == some field) =
      nodes.find? fun n => n.field? == some field := by
  rcases lead_cases h with ⟨_, rfl⟩ | ⟨body, last, place, rest, rfl, rfl⟩ | ⟨place, rfl⟩ <;>
    simp [Node.field?]

/-! ### Steps that succeed -/

/-- A rule that cannot be taken for that of a type: its name has no point in it, and unless
it is a rule of the template's own it is that of a format that is asked for. -/
def Beside (asked : Formatted → String → Prop) (r : Rule) : Prop :=
  '.' ∉ r.name.toList ∧ (r.origin = .template ∨ ∃ k f, asked k f ∧ Formatted.rule k f = .ok r)

/-- Rules are added at the end, and none that could be taken for that of a type. -/
def Adds (asked : Formatted → String → Prop) (s t : RuleSet) : Prop :=
  ∃ new, t.rules = s.rules ++ new ∧ ∀ r ∈ new, Beside asked r

variable {asked : Formatted → String → Prop}

/-- Adding no rule is a case of adding rules that are asked for. -/
theorem Adds.refl (s : RuleSet) : Adds asked s s :=
  ⟨[], by simp⟩

/-- Two runs of additions are one. -/
theorem Adds.trans {s t u : RuleSet} (h : Adds asked s t) (h' : Adds asked t u) :
    Adds asked s u := by
  obtain ⟨new, hnew, hall⟩ := h
  obtain ⟨new', hnew', hall'⟩ := h'
  exact ⟨new ++ new', by rw [hnew', hnew, List.append_assoc],
    List.forall_mem_append.mpr ⟨hall, hall'⟩⟩

/-- One more rule at the end of the set. -/
theorem adds_rule {s t : RuleSet} {r : Rule} (h : t.rules = s.rules ++ [r]) (hr : Beside asked r) :
    Adds asked s t :=
  ⟨[r], h, List.forall_mem_singleton.mpr hr⟩

/-- What only adds rules extends the set. -/
theorem Adds.extends {s t : RuleSet} (h : Adds asked s t) : t.Extends s :=
  have ⟨_, hnew, _⟩ := h
  RuleSet.extends_append hnew

namespace Compile

variable {α β : Type}

/-- **What a step yields** if it succeeds: it adds rules at the end, and `post` holds in
every set with the rules that there are after it. -/
def Yields (asked : Formatted → String → Prop) (x : Compile α) (post : RuleSet → α → Prop) : Prop :=
  ∀ s s' a, x.exec s = (.ok a, s') →
    Adds asked s.rules s'.rules ∧ ∀ set, RuleSet.Extends set s'.rules → post set a

/-- A computation that only returns leaves the set as it is. -/
theorem yields_pure {a : α} {post : RuleSet → α → Prop} (h : ∀ set, post set a) :
    Yields asked (pure a) post := by
  intro s s' b hexec
  cases hexec
  exact ⟨.refl _, fun set _ => h set⟩

/-- A failing computation promises whatever is asked of its result. -/
theorem yields_throw (f : Fault) (post : RuleSet → α → Prop) : Yields asked (throw f) post := by
  intro s s' a hexec
  cases hexec

/-- An outcome lifted into the compiler leaves the set as it is. -/
theorem yields_ofOutcome {o : Outcome α} : Yields asked (ofOutcome o) fun _ a => o = .ok a := by
  cases o with
  | error f => exact yields_throw f _
  | ok a => exact yields_pure fun _ => rfl

/-- The promise about a computation's result can be weakened. -/
theorem Yields.mono {x : Compile α} {post post' : RuleSet → α → Prop} (h : Yields asked x post)
    (hpost : ∀ set a, post set a → post' set a) : Yields asked x post' := by
  intro s s' a hexec
  obtain ⟨hkept, hall⟩ := h s s' a hexec
  exact ⟨hkept, fun set hset => hpost set a (hall set hset)⟩

/-- **Steps one after the other** yield what each of them does. What the first one yields
whatever the rules are may be assumed about the second. -/
theorem Yields.bind {P : α → Prop} {x : Compile α} {f : α → Compile β} {mid : RuleSet → α → Prop}
    {post : RuleSet → β → Prop} (hx : Yields asked x fun set a => P a ∧ mid set a)
    (hf : ∀ a, P a → Yields asked (f a) fun set b => mid set a → post set b) :
    Yields asked (x >>= f) post := by
  intro s s' b hexec
  rw [exec_bind] at hexec
  split at hexec
  · rename_i a s₁ hfirst
    obtain ⟨hkept, hmid⟩ := hx s s₁ a hfirst
    obtain ⟨hkept', hpost⟩ := hf a (hmid _ (.refl _)).1 s₁ s' b hexec
    exact ⟨hkept.trans hkept', fun set hset =>
      hpost set hset (hmid set (hset.trans hkept'.extends)).2⟩
  · cases hexec

/-- Two steps in a row, the first of which says nothing about the set. -/
theorem Yields.bind_of {P : α → Prop} {x : Compile α} {f : α → Compile β}
    {post : RuleSet → β → Prop} (hx : Yields asked x fun _ a => P a)
    (hf : ∀ a, P a → Yields asked (f a) post) : Yields asked (x >>= f) post :=
  (hx.mono fun _ _ h => And.intro h trivial).bind fun a ha => (hf a ha).mono fun _ _ h _ => h

theorem yields_refuse (c : Compiler) (n : Node) (cause : Fault.Cause)
    (post : RuleSet → α → Prop) : Yields asked (c.refuse n cause) post := by
  intro s s' a hexec
  obtain ⟨f, hf⟩ := c.exec_refuse (α := α) n cause s
  rw [hf] at hexec
  cases hexec

end Compile

open Compile

namespace Compiler

variable {c : Compiler} {d : SchemaType} {stem : String}

/-! ### Fitting the schema -/

/-- The property a node names is one of the type's. -/
theorem yields_property (n : Node) (field : String) :
    Yields asked (c.property ⟨d, stem⟩ n field) fun _ p => d.property? field = some p := by
  unfold property
  split
  · exact yields_pure fun _ => ‹_›
  · exact yields_refuse c n _ _

/-- A conditional names one Boolean that is no list. -/
theorem yields_booleanProperty (n : Node) (field : String) :
    Yields asked (c.booleanProperty ⟨d, stem⟩ n field) fun _ _ =>
      ∃ p, d.property? field = some p ∧ p.type = "Boolean" ∧ p.array = false := by
  unfold booleanProperty
  refine (yields_property n field).bind_of fun p hp => ?_
  split
  · exact yields_refuse c n _ _
  · rename_i hboolean
    have hboolean : p.type = "Boolean" ∧ p.array = false := by simpa using hboolean
    exact yields_pure fun _ => ⟨p, hp, hboolean⟩

/-- The type a block opens is the one its property lays out. -/
theorem yields_blockType (n : Node) (kind : BlockKind) (p : Property) :
    Yields asked (c.blockType n kind p) fun _ e => LaidOut c.catalog p e := by
  unfold blockType
  by_cases hcomplex : (p.isPrimitive || p.relationship) = true
  · rw [if_pos hcomplex]
    exact (yields_refuse c n _ fun _ _ => False).bind_of fun _ h => h.elim
  · rw [if_neg hcomplex]
    have hcomplex : p.isPrimitive = false ∧ p.relationship = false := by simpa using hcomplex
    refine yields_ofOutcome.bind_of fun e he => ?_
    have hfind : c.catalog.types.find? p.type = some e := by
      unfold Catalog.get at he
      split at he
      · cases he
        assumption
      · cases he
    by_cases hconcrete : (e.isEnum || e.abstract) = true
    · rw [if_pos hconcrete]
      exact (yields_refuse c n _ fun _ _ => False).bind_of fun _ h => h.elim
    · rw [if_neg hconcrete]
      have hconcrete : e.isEnum = false ∧ e.abstract = false := by simpa using hconcrete
      exact yields_pure fun _ => ⟨hcomplex.1, hcomplex.2, hfind, hconcrete.1, hconcrete.2⟩

/-! ### Adding rules -/

/-- **Adding a rule** succeeds if its name is free, and leaves it behind the others. -/
theorem exec_addRule {n? : Option Node} {r : Rule} {s s' : Progress} {a : Unit}
    (h : (c.addRule n? r).exec s = (.ok a, s')) : r.name ∉ s.rules.names ∧
      s' = { s with rules := { s.rules with rules := s.rules.rules ++ [r] } } := by
  unfold addRule at h
  rw [exec_bind] at h
  have hget : (get : Compile Progress).exec s = (.ok s, s) := rfl
  rw [hget] at h
  simp only at h
  cases hobstacle : s.rules.obstacle? r with
  | none =>
    rw [hobstacle] at h
    cases h
    exact ⟨(RuleSet.obstacle_eq_none_iff.mp hobstacle).1, rfl⟩
  | some cause =>
    rw [hobstacle] at h
    cases n? with
    | none => cases h
    | some n =>
      obtain ⟨f, hf⟩ := c.exec_refuse (α := Unit) n (.structural (.rule cause)) s
      simp only [hf] at h
      cases h

/-- After a rule is added, the set has it. -/
theorem yields_addRule (n? : Option Node) {r : Rule} (hr : Beside asked r) :
    Yields asked (c.addRule n? r) fun set _ => set.Holds r := by
  intro s s' a hexec
  obtain ⟨hname, rfl⟩ := exec_addRule hexec
  exact ⟨adds_rule rfl hr, fun set hset => hset r (RuleSet.holds_append hname rfl)⟩

/-- The rule of a format stands beside the template's own ones. -/
theorem beside_format {k : Formatted} {format : String} {r : Rule} (hasked : asked k format)
    (h : k.rule format = .ok r) : Beside asked r := by
  refine ⟨?_, .inr ⟨k, format, hasked, h⟩⟩
  rw [(Formatted.rule_spec h).1]
  exact k.not_dotted_ruleName format

/-- **The rule of a format** is asked for by its name. -/
theorem yields_formatTarget (n : Node) (p : Property) {format : String}
    (hasked : ∀ k, Formatted.ofType? p.type = some k → asked k format) :
    Yields asked (c.formatTarget n p format) fun _ target => Target p (some format) target := by
  intro s s' target hexec
  unfold formatTarget at hexec
  split at hexec
  · exact yields_refuse c n _ (fun _ target => Target p (some format) target) s s' target hexec
  · rename_i k hk
    obtain ⟨hrelationship, hk⟩ : p.relationship = false ∧ Formatted.ofType? p.type = some k := by
      split at hk
      · cases hk
      · exact ⟨by simpa using ‹¬ p.relationship = true›, hk⟩
    split at hexec
    · exact yields_refuse c n _ (fun _ target => Target p (some format) target) s s' target hexec
    · rename_i r hr
      have hresult : (.ok r.name,
          if s.rules.has r.name then s
          else { s with rules := { s.rules with rules := s.rules.rules ++ [r] } }) =
            ((.ok target, s') : Except Fault String × Progress) := hexec
      obtain ⟨rfl, rfl⟩ : r.name = target ∧ _ = s' := by simpa using hresult
      refine ⟨?_, fun _ _ => ⟨hrelationship, k, r, hk, hr, (Formatted.rule_spec hr).1⟩⟩
      split
      · exact .refl _
      · exact adds_rule rfl (beside_format (hasked k hk) hr)

/-! ### Rules of single nodes -/

/-- The rule that a step makes for a node is one of the template's own and has the name of
the node, which is ruled where the rule is. -/
def Makes (asked : Formatted → String → Prop) (c : Compiler) (d : SchemaType) (name : String)
    (n : Node) (x : Compile Rule) : Prop :=
  Yields asked x fun set r =>
    (r.name = name ∧ r.origin = .template) ∧ (set.Holds r → Ruled c set d name n)

/-- Literal text is compiled to the rule of its characters. -/
theorem makes_textRule (body name : String) (last : Bool) (place : Text.Position) :
    Makes asked c d name (.text body last place) (pure (textRule body name)) :=
  yields_pure fun _ => ⟨⟨rfl, rfl⟩, .text⟩

/-- An expression is compiled to a rule that refuses every text. -/
theorem makes_expressionRule (body name : String) (place : Text.Position) :
    Makes asked c d name (.expression body place) (expressionRule body name) := by
  intro s s' r hexec
  cases hexec
  exact ⟨⟨[], (List.append_nil _).symm, by simp⟩, fun _ _ => ⟨⟨rfl, rfl⟩, .expression⟩⟩

section Binding

variable {field name : String} {place : Text.Position}

theorem yields_bindingRule (n : Node) (format : Option String)
    (hasked : ∀ f ∈ format, ∀ x ∈ boundFormat d field f, asked x.1 x.2) :
    Yields asked (c.bindingRule n field format ⟨d, stem⟩ name) fun _ r => ∃ p target,
      d.property? field = some p ∧ Target p format target ∧
        r = referenceRule name target (d.fqn ++ "." ++ field) p.cardinality := by
  unfold bindingRule
  refine (yields_property n field).bind_of fun p hp => ?_
  cases format with
  | none =>
    simp only [pure_bind]
    exact yields_pure fun _ => ⟨p, p.ruleName, hp, rfl, rfl⟩
  | some format =>
    refine (yields_formatTarget n p fun k hk => ?_).bind_of fun target htarget => ?_
    · exact hasked format rfl (k, format) (by simp [boundFormat, hp, hk])
    exact yields_pure fun _ => ⟨p, target, hp, htarget, rfl⟩

/-- A conditional without an alternative is compiled to an optional literal. -/
theorem makes_shownRule (n : Node) (whenTrue : String) :
    Makes asked c d name (.shown field whenTrue place)
      (c.shownRule n field whenTrue ⟨d, stem⟩ name) := by
  unfold Makes shownRule
  refine (yields_booleanProperty n field).bind_of fun _ ⟨p, hp, hboolean, harray⟩ => ?_
  by_cases htext : whenTrue.isEmpty = true
  · rw [if_pos htext]
    exact (yields_refuse c n _ fun _ _ => False).bind_of fun _ h => h.elim
  · rw [if_neg htext]
    rw [String.isEmpty_iff] at htext
    exact yields_pure fun _ => ⟨⟨rfl, rfl⟩, .shown hp hboolean harray htext⟩

/-- A conditional with both texts is compiled to a choice of two literals. -/
theorem makes_choiceRule (n : Node) (whenTrue whenFalse : String) :
    Makes asked c d name (.choice field whenTrue whenFalse place)
      (c.choiceRule n field whenTrue whenFalse ⟨d, stem⟩ name) := by
  unfold Makes choiceRule
  refine (yields_booleanProperty n field).bind_of fun _ ⟨p, hp, hboolean, harray⟩ => ?_
  by_cases htexts : whenTrue = whenFalse
  · rw [if_pos htexts]
    exact (yields_refuse c n _ fun _ _ => False).bind_of fun _ h => h.elim
  · rw [if_neg htexts]
    exact yields_pure fun _ => ⟨⟨rfl, rfl⟩, .choice hp hboolean harray htexts⟩

end Binding

/-! ### Levels -/

/-- The names of a type's properties have no points in them. -/
def Undotted (d : SchemaType) : Prop :=
  ∀ p ∈ d.properties, '.' ∉ p.name.toList

/-- The fields of an undotted type have no dot in their names. -/
theorem Undotted.field {d : SchemaType} (hd : Undotted d) {field : String} {p : Property}
    (hp : d.property? field = some p) : '.' ∉ field.toList := by
  obtain rfl : p.name = field := by simpa using List.find?_some hp
  exact hd p (mem_of_property hp)

theorem not_dotted_toString (i : Nat) : '.' ∉ (toString i).toList := by
  intro h
  rw [show toString i = i.repr from rfl, Nat.toList_repr] at h
  exact absurd (Nat.isDigit_of_mem_toDigits (by decide) (by decide) h) (by decide)

/-- Every node of a level has its rule made, with the formats that are asked for. -/
def MakesAll (asked : Formatted → String → Prop) (c : Compiler) (nodes : List Node) : Prop :=
  ∀ n ∈ nodes, ∀ d, Undotted d → (∀ x ∈ c.formatsOf n d, asked x.1 x.2) →
    ∀ stem name, Makes asked c d name n (c.ruleOf n ⟨d, stem⟩ name)

/-- The part that a node adds to the rule of its level, if it has one. -/
def partOf (stem : String) (n : Node) (i : Nat) : Option (String × Option String) :=
  if n.silent then none else some (stem ++ toString i, n.field?)

theorem yields_addMember {n : Node} (hstem : '.' ∉ stem.toList)
    (h : ∀ name, Makes asked c d name n (c.ruleOf n ⟨d, stem⟩ name)) (i : Nat) :
    Yields asked (c.addMember ⟨d, stem⟩ ⟨n, c.ruleOf n⟩ i) fun set part =>
      part = partOf stem n i ∧ (n.silent = false → Ruled c set d (stem ++ toString i) n) := by
  unfold addMember partOf
  split
  · rename_i last place hnode
    obtain rfl : n = .text "" last place := hnode
    exact yields_pure fun _ => by simp [Node.silent]
  · rename_i hnode
    have hsilent : n.silent = false := by
      rw [Bool.eq_false_iff, Ne, silent_iff]
      rintro ⟨last, place, h⟩
      exact hnode last place h
    simp only [hsilent, Bool.false_eq_true, if_false]
    refine (h _).bind fun r hmade => ?_
    obtain ⟨hname, horigin⟩ := hmade
    have hr : Beside asked r := by
      refine ⟨?_, .inl horigin⟩
      rw [hname, String.toList_append, List.mem_append, not_or]
      exact ⟨hstem, not_dotted_toString i⟩
    refine ((yields_addRule _ hr).mono fun _ _ h => And.intro trivial h).bind fun _ _ => ?_
    exact yields_pure fun set hholds hr => ⟨rfl, fun _ => hr hholds⟩

/-- **Adding the members of a level one by one** leaves the parts of its rule. -/
theorem yields_addMembers {nodes : List Node} (hstem : '.' ∉ stem.toList)
    (h : ∀ n ∈ nodes, ∀ name, Makes asked c d name n (c.ruleOf n ⟨d, stem⟩ name)) (start : Nat) :
    Yields asked
      (((c.membersOf nodes).zipIdx start).filterMapM fun (m, i) => c.addMember ⟨d, stem⟩ m i)
      fun set parts => parts = (numbered stem nodes start).map (fun e => (e.1, e.2.field?)) ∧
        ∀ m ∈ numbered stem nodes start, Ruled c set d m.1 m.2 := by
  induction nodes generalizing start with
  | nil => exact yields_pure fun _ => ⟨rfl, by simp [numbered]⟩
  | cons n ns ih =>
    rw [membersOf, List.zipIdx_cons, List.filterMapM_cons]
    refine (yields_addMember hstem (h n (by simp)) start).bind fun part hpart => ?_
    subst hpart
    have hrest := ih (fun m hm => h m (by simp [hm])) (start + 1)
    by_cases hsilent : n.silent = true
    · have hnumbered : numbered stem (n :: ns) start = numbered stem ns (start + 1) := by
        simp [numbered, List.zipIdx_cons, hsilent]
      rw [hnumbered, partOf, if_pos hsilent]
      exact hrest.mono fun set parts hparts _ => hparts
    · have hnumbered : numbered stem (n :: ns) start =
          (stem ++ toString start, n) :: numbered stem ns (start + 1) := by
        simp [numbered, List.zipIdx_cons, hsilent]
      rw [hnumbered, partOf, if_neg hsilent]
      refine hrest.bind fun parts hparts => yields_pure fun set hns hn => ?_
      refine ⟨by rw [List.map_cons, hparts], List.forall_mem_cons.mpr ⟨hn ?_, hns⟩⟩
      simpa using hsilent

/-- The arguments of a level's action: the class, the identifier if one is issued, and one reference
for each part that is bound. -/
theorem yields_levelParams (c : Compiler) (d : SchemaType) (parts : List (String × Node)) :
    Yields asked (c.levelParams d (boundParts parts)) fun _ params =>
      ∃ id, params = levelArguments d id parts := by
  unfold levelParams levelArguments
  dsimp only
  cases d.identifier? with
  | none =>
    rw [pure_bind]
    exact yields_pure fun _ => ⟨"", rfl⟩
  | some key =>
    have hissue : Yields asked c.issue fun _ _ => True := by
      intro s s' id hexec
      cases hexec
      exact ⟨.refl _, fun _ _ => trivial⟩
    simp only [pure_bind]
    exact hissue.bind_of fun id _ => yields_pure fun _ => ⟨id, rfl⟩

/-- **The rules of a level** rule it. -/
theorem yields_addLevel {nodes : List Node} (hstem : '.' ∉ stem.toList)
    (h : ∀ n ∈ nodes, ∀ name, Makes asked c d name n (c.ruleOf n ⟨d, stem⟩ name)) :
    Yields asked (c.addLevel ⟨d, stem⟩ (c.membersOf nodes)) fun set _ =>
      RuledLevel c set d stem nodes := by
  unfold addLevel
  refine (yields_addMembers hstem h 0).bind fun parts hparts => ?_
  subst hparts
  by_cases hempty : numbered stem nodes = []
  · rw [if_pos (by simp [hempty])]
    exact (yields_throw _ fun _ _ => False).bind_of fun _ h => h.elim
  · have hbound : ((numbered stem nodes).map (fun e => (e.1, e.2.field?))).filterMap
        (fun e => e.2.map (·, e.1)) = boundParts (numbered stem nodes) := by
      rw [List.filterMap_map]
      rfl
    have hsymbols : ((numbered stem nodes).map (fun e => (e.1, e.2.field?))).map
        (fun e => Symbol.rule e.1) = (numbered stem nodes).map fun e => .rule e.1 := by
      rw [List.map_map]
      rfl
    rw [if_neg (by simpa using hempty)]
    simp only [hbound, hsymbols]
    refine (yields_levelParams c d _).bind_of fun params ⟨id, hparams⟩ => ?_
    subst hparams
    exact (yields_addRule none ⟨hstem, .inl rfl⟩).mono fun set _ hholds hall =>
      ⟨⟨hempty, id, hholds⟩, hall⟩

/-- The members of a level with a text in front of it. -/
theorem leadMembers_membersOf (c : Compiler) (start : String) (nodes : List Node) :
    leadMembers Member.node textMember start (c.membersOf nodes) =
      (lead start nodes).map c.membersOf := by
  have hmembers : c.membersOf = List.map fun n => ⟨n, c.ruleOf n⟩ :=
    funext fun ns => membersOf_eq_map c ns
  rw [hmembers]
  exact leadMembers_map (fun _ => rfl) (fun _ _ _ => rfl) start nodes

theorem yields_addLedLevel {nodes : List Node} (hd : Undotted d) (hstem : '.' ∉ stem.toList)
    (h : MakesAll asked c nodes) (hasked : ∀ x ∈ c.formats nodes d, asked x.1 x.2) (start : String) :
    Yields asked (c.addLedLevel ⟨d, stem⟩ start (c.membersOf nodes)) fun set _ =>
      ∃ led, lead start nodes = .ok led ∧ RuledLevel c set d stem led := by
  unfold addLedLevel
  rw [leadMembers_membersOf]
  refine yields_ofOutcome.bind_of fun members hmembers => ?_
  obtain ⟨led, hled, rfl⟩ := Outcome.map_eq_ok.mp hmembers
  refine (yields_addLevel hstem fun n hn name => ?_).mono fun set _ hruled => ⟨led, hled, hruled⟩
  rcases mem_of_lead hled hn with hn | ⟨body, last, place, rfl⟩
  · exact h n hn d hd (fun x hx => hasked x (mem_formats.mpr ⟨n, hn, hx⟩)) stem name
  · exact makes_textRule body name last place

/-! ### Blocks -/

section Block

variable {field name : String} {nodes : List Node} {place : Text.Position}

/-- A block over another level is compiled to a reference to that level's rule. -/
theorem makes_nestedRule (hc : ∀ {T e}, c.catalog.types.find? T = some e → Undotted e)
    (hd : Undotted d) (n : Node) {kind : BlockKind} (hkind : ∀ style, kind ≠ .list style)
    (h : MakesAll asked c nodes)
    (hasked : ∀ x ∈ c.formatsOf (.block kind field nodes place) d, asked x.1 x.2) :
    Makes asked c d name (.block kind field nodes place)
      (c.nestedRule n kind field (c.membersOf nodes) ⟨d, stem⟩ name) := by
  unfold Makes nestedRule
  refine (yields_property n field).bind_of fun p hp => ?_
  refine (yields_blockType n kind p).bind_of fun e he => ?_
  rw [formatsOf_block hp he.found] at hasked
  refine ((yields_addLevel (hd.field hp) fun m hm => h m hm e (hc he.found) (fun x hx =>
    hasked x (mem_formats.mpr ⟨m, hm, hx⟩)) field).mono
      fun _ _ hlevel => And.intro trivial hlevel).bind fun _ _ => ?_
  exact yields_pure fun set hlevel => ⟨⟨rfl, rfl⟩, fun hholds =>
    .nested hkind hp he hholds hlevel.level hlevel.nodes⟩

/-- A list is compiled to its first item followed by any number of others. -/
theorem makes_listRule (hc : ∀ {T e}, c.catalog.types.find? T = some e → Undotted e)
    (hd : Undotted d) (n : Node) (style : ListStyle) (h : MakesAll asked c nodes)
    (hasked : ∀ x ∈ c.formatsOf (.block (.list style) field nodes place) d, asked x.1 x.2) :
    Makes asked c d name (.block (.list style) field nodes place)
      (c.listRule n style field (c.membersOf nodes) ⟨d, stem⟩ name) := by
  unfold Makes listRule
  refine (yields_property n field).bind_of fun p hp => ?_
  by_cases harray : p.array = true
  · rw [if_pos harray]
    refine (yields_blockType n (.list style) p).bind_of fun e he => ?_
    rw [formatsOf_block hp he.found] at hasked
    have hfirst : '.' ∉ (field ++ "First").toList := by
      rw [String.toList_append, List.mem_append, not_or]
      exact ⟨hd.field hp, by decide⟩
    refine ((yields_addLedLevel (hc he.found) hfirst h hasked _).mono
      fun _ _ hlevel => And.intro trivial hlevel).bind fun _ _ => ?_
    refine ((yields_addLedLevel (hc he.found) (hd.field hp) h hasked _).mono
      fun _ _ hlevel => And.intro trivial hlevel).bind fun _ _ => ?_
    refine yields_pure fun set hlater hfirst => ⟨⟨rfl, rfl⟩, fun hholds => ?_⟩
    obtain ⟨first, hfirst, hfirstLevel⟩ := hfirst
    obtain ⟨later, hlater, hlaterLevel⟩ := hlater
    exact .list hp harray he hholds hfirst hlater hfirstLevel.level hlaterLevel.level
      hfirstLevel.nodes hlaterLevel.nodes
  · rw [if_neg harray]
    exact (yields_refuse c n _ fun _ _ => False).bind_of fun _ h => h.elim

end Block

mutual

/-- **The rules that are made for a node** rule it, and those of formats among them are of the
formats that it asks for. -/
theorem makes_ruleOf (hc : ∀ {T e}, c.catalog.types.find? T = some e → Undotted e) {d : SchemaType}
    (hd : Undotted d) (stem name : String) : ∀ n, (∀ x ∈ c.formatsOf n d, asked x.1 x.2) →
      Makes asked c d name n (c.ruleOf n ⟨d, stem⟩ name)
  | .text body last place, _ => makes_textRule body name last place
  | .binding _ none _, _ =>
    (yields_bindingRule _ none fun _ hf => absurd hf (Option.not_mem_none _)).mono
      fun _ _ ⟨_, _, hp, htarget, hr⟩ =>
        ⟨hr ▸ ⟨rfl, rfl⟩, fun hholds => .binding hp htarget (hr ▸ hholds)⟩
  | .binding _ (some format) _, hasked =>
    (yields_bindingRule _ (some format) (by rintro _ ⟨rfl⟩; exact hasked)).mono
      fun _ _ ⟨_, _, hp, htarget, hr⟩ =>
        ⟨hr ▸ ⟨rfl, rfl⟩, fun hholds => .binding hp htarget (hr ▸ hholds)⟩
  | .formatted _ format _, hasked =>
    (yields_bindingRule _ (some format) (by rintro _ ⟨rfl⟩; exact hasked)).mono
      fun _ _ ⟨_, _, hp, htarget, hr⟩ =>
        ⟨hr ▸ ⟨rfl, rfl⟩, fun hholds => .formatted hp htarget (hr ▸ hholds)⟩
  | .shown _ whenTrue _, _ => makes_shownRule _ whenTrue
  | .choice _ whenTrue whenFalse _, _ => makes_choiceRule _ whenTrue whenFalse
  | .block .clause _ nodes _, hasked =>
    makes_nestedRule hc hd _ (fun _ h => nomatch h) (makes_membersOf hc nodes) hasked
  | .block .within _ nodes _, hasked =>
    makes_nestedRule hc hd _ (fun _ h => nomatch h) (makes_membersOf hc nodes) hasked
  | .block (.list style) _ nodes _, hasked =>
    makes_listRule hc hd _ style (makes_membersOf hc nodes) hasked
  | .expression body place, _ => makes_expressionRule body name place
  | .foreign .., _ => yields_refuse c _ _ _

theorem makes_membersOf (hc : ∀ {T e}, c.catalog.types.find? T = some e → Undotted e) :
    ∀ nodes, MakesAll asked c nodes
  | [] => fun _ hn => nomatch hn
  | n :: ns => fun m hm d hd =>
    match List.mem_cons.mp hm with
    | .inl h => h ▸ fun hasked stem name => makes_ruleOf hc hd stem name n hasked
    | .inr h => makes_membersOf hc ns m h d hd

end

/-! ### Whole templates -/

/-- The properties of the types of a catalog have names without points. -/
theorem undotted_of_find {c : Catalog} (hc : c.Built) {T : String} {d : SchemaType}
    (h : c.types.find? T = some d) : Undotted d := by
  intro p hp
  obtain ⟨f, hf, t, ht, q, hq, hqp⟩ := (hc.declared _ (Table.mem_of_find h)).properties p hp
  exact hqp ▸ not_dotted_of_isName ((hc.named f hf).properties t ht q hq).1

/-- A rule set in which the rules made for a template stand beside those that go with its
type. -/
structure Joined (c : Compiler) (asked : Formatted → String → Prop) (d : SchemaType)
    (own types set : RuleSet) : Prop where
  given : c.catalog.rules c.settings d.fqn = .ok types
  adds : Adds asked {} own
  free : ∀ r ∈ types.rules, ∀ q, own.find? r.name = some q → q.origin ≠ .template
  joins : set.rules = own.rules ++ types.rules.filter fun r => !own.has r.name

section Joined

variable {own types set : RuleSet}

theorem Joined.beside (h : c.Joined asked d own types set) {x : String} {r : Rule}
    (hr : own.find? x = some r) : Beside asked r ∧ r.name = x := by
  obtain ⟨new, hnew, hbeside⟩ := h.adds
  have hmem := List.mem_of_find?_eq_some hr
  rw [hnew, List.nil_append] at hmem
  exact ⟨hbeside r hmem, by simpa using List.find?_some hr⟩

/-- A rule of the joined set is the template's own or a type's. -/
theorem Joined.find (h : c.Joined asked d own types set) {x : String} {r : Rule}
    (hr : set.find? x = some r) : own.find? x = some r ∨ types.find? x = some r := by
  rw [RuleSet.find?, h.joins, List.find?_append, Option.or_eq_some_iff] at hr
  rcases hr with hr | ⟨_, hr⟩
  · exact .inl hr
  · have hmem := (List.mem_filter.mp (List.mem_of_find?_eq_some hr)).1
    exact .inr ((Catalog.mem_rules h.given).1.find_eq_some_iff.mpr
      ⟨hmem, by simpa using List.find?_some hr⟩)

/-- No rule of the template is taken for one that goes with every type. -/
theorem Joined.apart (h : c.Joined asked d own types set) {base : List Rule}
    (hbase : primitiveRules c.settings = .ok base) {q r : Rule} (hq : q ∈ base)
    (hline : '_' ∉ q.name.toList) : own.find? q.name ≠ some r := by
  intro hr
  obtain ⟨⟨_, horigin | ⟨k, format, _, hformat⟩⟩, hname⟩ := h.beside hr
  · exact h.free q (Catalog.base_subset_rules h.given hbase hq) r hr horigin
  · rw [← hname, (Formatted.rule_spec hformat).1] at hline
    exact hline (k.mem_ruleName format)

/-- No rule of the template is taken for one of a declared type. -/
theorem Joined.undotted (h : c.Joined asked d own types set) {x : String} {r : Rule}
    (hx : '.' ∈ x.toList) : own.find? x ≠ some r := by
  intro hr
  obtain ⟨⟨hpoint, _⟩, hname⟩ := h.beside hr
  exact hpoint (hname ▸ hx)

/-- **The rules of a template beside those of types** leave the rules of types as they
are. -/
theorem Joined.typedRules (h : c.Joined asked d own types set) (hc : c.catalog.Built) :
    c.catalog.TypedRules set := by
  have htyped := hc.typedRules h.given
  obtain ⟨_, base, _, hbase, _⟩ := Catalog.mem_rules h.given
  constructor
  · intro r hr
    rcases h.find hr with hr | hr
    · exact absurd hr (h.apart hbase (Catalog.anyTextRule_mem hbase) (by decide))
    · exact htyped.any hr
  · intro T t regex action r ht hpattern hr
    rcases h.find hr with hr | hr
    · have hline := (Primitive.char_of_isName (show Primitive.isName T = true by
        rw [Primitive.isName, ht]; rfl)).2
      exact absurd hr (h.apart hbase (Catalog.patternRule_mem hbase ht hpattern) hline)
    · exact htyped.primitive ht hpattern hr
  · intro d r hd hmoney hr
    rcases h.find hr with hr | hr
    · exact absurd hr (h.undotted (hc.dotted (Table.mem_names_of_find hd)))
    · exact htyped.declared hd hmoney hr

/-- **The rules of formats** are left as they are too, but for those that a template has a
rule of its own in the place of. -/
theorem Joined.formatRules (h : c.Joined asked d own types set) (hc : c.catalog.Built) :
    Catalog.FormatRules c.settings set := by
  have hformats := hc.typeFormats h.given
  obtain ⟨hwell, base, _, hbase, _⟩ := Catalog.mem_rules h.given
  constructor
  · intro T k f r hdefault hr
    have hr : types.find? T = some r := by
      rcases h.find hr with hr | hr
      · cases hdefault with
        | date =>
          obtain ⟨⟨q, hq, hname⟩, _⟩ := Catalog.dateRule_mem hbase
          exact absurd (hname ▸ hr) (h.apart hbase hq (by rw [hname]; decide))
        | money => exact absurd hr (h.undotted (by decide))
      · exact hr
    obtain ⟨hpasses, hname⟩ := hformats.passes hdefault hr
    refine ⟨hpasses, fun q hq => ?_⟩
    rcases h.find hq with hq | hq
    · obtain ⟨r', hr', hname'⟩ := List.mem_map.mp hname
      exact h.free r' hr' q (hname' ▸ hq)
    · exact hformats.origin q (hwell.find_eq_some_iff.mp hq).1
  · intro k f r hr horigin
    rcases h.find hr with hr | hr
    · obtain ⟨⟨_, hbeside | ⟨k', f', _, hformat⟩⟩, hname⟩ := h.beside hr
      · exact absurd hbeside horigin
      · obtain rfl := Formatted.kind_of_ruleName
          ((Formatted.rule_spec hformat).1.symm.trans hname)
        exact ⟨f', hformat⟩
    · obtain ⟨hmem, hname⟩ := hwell.find_eq_some_iff.mp hr
      obtain ⟨_, f', _, hformat⟩ := hformats.format hmem hname
      exact ⟨f', hformat⟩

end Joined

def Asks (c : Compiler) (nodes : List Node) (d : SchemaType) (k : Formatted) (f : String) : Prop :=
  (k, f) ∈ c.formats nodes d

/-- **The rules that are made for the nodes of a template** rule them, and none of them could
be taken for that of a type. -/
theorem ruled_of_nodeRules (hc : c.catalog.Built) (hd : c.catalog.types.find? d.fqn = some d)
    {nodes : List Node} {issued : Nat} {own : RuleSet}
    (h : (c.nodeRules nodes d issued).1 = .ok own) :
    Adds (c.Asks nodes d) {} own ∧
      ∀ set, RuleSet.Extends set own → RuledLevel c set d topStem nodes := by
  have hundotted : ∀ {T e}, c.catalog.types.find? T = some e → Undotted e := undotted_of_find hc
  have hlevel := @yields_addLevel (c.Asks nodes d) c d topStem nodes (by decide) fun n hn name =>
    makes_membersOf hundotted nodes n hn d (hundotted hd)
      (fun _ hx => mem_formats.mpr ⟨n, hn, hx⟩) topStem name
  rw [nodeRules_eq] at h
  split at h
  · rename_i s hexec
    cases h
    exact hlevel { issued } s () hexec
  · cases h

/-- **The rules made for a template** rule its nodes, refer to each other only, and stand beside
the rules of types. -/
theorem joined_of_compile (hc : c.catalog.Built) (hd : c.catalog.types.find? d.fqn = some d)
    {nodes : List Node} {issued : Nat} {set : RuleSet}
    (h : (c.compile nodes d issued).1 = .ok set) :
    (∃ own types, (c.nodeRules nodes d issued).1 = .ok own ∧
      c.Joined (c.Asks nodes d) d own types set) ∧ RuledLevel c set d topStem nodes ∧
      set.check = .ok () ∧ set.start = some topStem := by
  obtain ⟨own, types, hown, htypes, hjoined, hcheck⟩ := exists_of_compile h
  obtain ⟨hfree, rfl⟩ := (addTypes_eq_ok_iff (Catalog.mem_rules htypes).1.names).mp hjoined
  obtain ⟨hadds, hruled⟩ := ruled_of_nodeRules hc hd hown
  exact ⟨⟨own, types, hown, htypes, hadds, hfree, rfl⟩, hruled _ (RuleSet.extends_append rfl), hcheck, rfl⟩

/-- **The rules made for a template** leave the rules of types as they are. -/
theorem ruled_of_compile (hc : c.catalog.Built) (hd : c.catalog.types.find? d.fqn = some d)
    {nodes : List Node} {issued : Nat} {set : RuleSet}
    (h : (c.compile nodes d issued).1 = .ok set) :
    RuledLevel c set d topStem nodes ∧ c.catalog.TypedRules set ∧ set.check = .ok () ∧
      set.start = some topStem := by
  obtain ⟨⟨own, types, _, hjoined⟩, hruled, hcheck, hstart⟩ := joined_of_compile hc hd h
  exact ⟨hruled, hjoined.typedRules hc, hcheck, hstart⟩

end Compiler

/-! ### An item with a part -/

namespace Shop

open Covenant.Shop

def stringRule : Rule :=
  patternRule "String" "\"(?:[^\"\\\\]|\\\\.)*\"" "string"

def itemRules : List Rule :=
  [stringRule, referenceRule "part0" "String" "shop.Part.label" .one,
    levelRule part "part" "" (numbered "part" [.binding "label" none ⟨1, 36⟩]),
    referenceRule "rule0" "String" "shop.Item.note" .one, Compiler.textRule " with " "rule1",
    referenceRule "rule2" "part" "shop.Item.part (clause)" .one,
    levelRule item "rule" "" (numbered "rule" itemNodes)]

theorem holds_itemRules : ∃ set, (compiler.compile itemNodes item 0).1 = .ok set ∧
    ∀ r ∈ itemRules, set.find? r.name = some r := by
  have htest : ((compiler.compile itemNodes item 0).1.toOption.any fun set =>
      decide (∀ r ∈ itemRules, set.find? r.name = some r)) = true := by
    decide +kernel
  obtain ⟨set, hset, hrules⟩ := Outcome.exists_of_any htest
  exact ⟨set, hset, of_decide_eq_true hrules⟩

end Shop

end Markup

end Covenant
