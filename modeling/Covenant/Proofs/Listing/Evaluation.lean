import Covenant.Proofs.Listing.Names
import Covenant.Proofs.Pattern.Tokens

/-!
Values of trees under the names of a listing.

* `apply_bound`: an alternative with bound parameters gives the value that its rule gives.
* `evaluate_labelled`: the tree of a derivation has the value of the derivation.
* `Evaluable`: what holds at a node where evaluation cannot get stuck; `evaluable_of_derives`: it holds
  at every node of the tree of a derivation.
* `exists_actionFails`: so that where evaluation fails, an action did.
* `evaluation_safe`: the tables of a complete set are enough for each of its trees.
-/

namespace Covenant

open Listing

variable {s : RuleSet} {t : Tables} {ctx : ReadingContext}

/-! ### Arguments -/

namespace Listing

section

variable {r : Rule} {symbols : List Symbol} {values : List Value} {source : ParamSource}

/-- A source bound ahead of time gives the value it gives at run time. -/
theorem value_of_bind {b : Binding} (h : bind? symbols source = some b) :
    b.value values = Action.bind symbols values source := by
  cases source with
  | const text =>
    cases h
    rfl
  | ref rule =>
    obtain ⟨k, hk, rfl⟩ := Option.map_eq_some_iff.mp h
    rw [Action.bind, hk]
    rfl
  | index position =>
    obtain ⟨k, hk, rfl⟩ := Option.map_eq_some_iff.mp h
    obtain rfl : position = k := (Int.mem_toNat?.mp hk)
    rw [Action.bind, if_neg (by omega), Int.toNat_natCast]
    rfl

/-- What a parameter is bound to is there, if there is one value for each symbol. -/
theorem Resolves.exists_value {b : Binding} (h : Resolves symbols source b)
    (hlength : values.length = symbols.length) : ∃ v, b.value values = .ok v := by
  have hposition : ∀ k < symbols.length, ∃ v, (Binding.position k).value values = .ok v := by
    intro k hk
    rw [← hlength] at hk
    exact ⟨values[k], by rw [Binding.value, List.getElem?_eq_getElem hk]; rfl⟩
  cases source with
  | const text =>
    cases h
    exact ⟨_, rfl⟩
  | ref rule =>
    obtain ⟨k, rfl, ⟨x, hx, -⟩, -⟩ := h
    exact hposition k (List.getElem?_eq_some_iff.mp hx).1
  | index position =>
    obtain ⟨k, rfl, -, hk⟩ := h
    exact hposition k hk

/-- **What an action is given for a parameter**: under its key, the value of what it is bound to. -/
def Given (symbols : List Symbol) (values : List Value) (p : ActionParam) (e : String × Value) :
    Prop :=
  e.1 = p.key ∧ ∃ b, Resolves symbols p.source b ∧ b.value values = .ok e.2

/-- **What an alternative of a rule comes to** with these values for its symbols: without an action
they are passed on, and an action runs with one argument for each of its parameters. -/
def Runs (r : Rule) (symbols : List Symbol) (values : List Value) (ctx : ReadingContext)
    (result : Outcome Value) : Prop :=
  match r.action with
  | none => result = .ok (Action.pass values)
  | some action => ∃ args, List.Forall₂ (Given symbols values) action.params args ∧
      result = Action.run action.name values (Table.ofList args) ctx

/-- Every parameter of an action is given an argument. -/
theorem exists_given {params : List ActionParam} {bindings : List (String × Binding)}
    (h : List.Forall₂ (fun p e => e.1 = p.key ∧ Resolves symbols p.source e.2) params bindings)
    (hlength : values.length = symbols.length) :
    ∃ args, (bindings.mapM fun p => (p.2.value values).map (p.1, ·)) = .ok args ∧
      List.Forall₂ (Given symbols values) params args := by
  induction h with
  | nil => exact ⟨[], rfl, .nil⟩
  | @cons p e params bindings hpe _ ih =>
    obtain ⟨hkey, hresolves⟩ := hpe
    obtain ⟨v, hv⟩ := hresolves.exists_value hlength
    obtain ⟨args, hargs, hgiven⟩ := ih
    refine ⟨(e.1, v) :: args, ?_, .cons ⟨hkey, e.2, hresolves, hv⟩ hgiven⟩
    exact Outcome.mapM_cons_ok.mpr ⟨_, by rw [hv]; rfl, args, hargs, rfl⟩

/-- The translated alternative runs the rule's own action. -/
theorem runs_apply (hcheck : s.check = .ok ()) (hr : r ∈ s.rules)
    (hsymbols : symbols ∈ r.alternatives) (hlength : values.length = symbols.length) (q : Nat) :
    Runs r symbols values ctx
      (Alternative.apply ⟨r, q, bound r symbols⟩ ctx values) := by
  have hbound : List.Forall₂ (fun p e => e.1 = p.key ∧ Resolves symbols p.source e.2)
      (paramsOf r) (bound r symbols) :=
    (bound_spec hcheck hr hsymbols).imp fun _ _ h => ⟨h.1, h.2.2⟩
  obtain ⟨args, hargs, hgiven⟩ := exists_given hbound hlength
  unfold Runs Alternative.apply
  cases ha : r.action with
  | none => rfl
  | some action =>
    refine ⟨args, by simpa [paramsOf, ha] using hgiven, ?_⟩
    simp only [hargs]
    rfl

/-- The arguments bound ahead of time are those the action would bind. -/
theorem mapM_value {params : List ActionParam} {bindings : List (String × Binding)}
    (h : List.Forall₂ (fun p e => e.1 = p.key ∧ bind? symbols p.source = some e.2) params bindings) :
    (bindings.mapM fun p => (p.2.value values).map (p.1, ·)) =
      params.mapM fun p => (Action.bind symbols values p.source).map (p.key, ·) := by
  induction h with
  | nil => rfl
  | cons hpe _ ih => rw [List.mapM_cons, List.mapM_cons, ih, value_of_bind hpe.2, hpe.1]

/-- **An alternative with bound parameters** gives the value that its rule gives. -/
theorem apply_bound (hcheck : s.check = .ok ()) (hr : r ∈ s.rules)
    (hsymbols : symbols ∈ r.alternatives) (q : Nat) :
    Alternative.apply ⟨r, q, bound r symbols⟩ ctx values = r.apply ctx symbols values := by
  have hbound : List.Forall₂ (fun p e => e.1 = p.key ∧ bind? symbols p.source = some e.2)
      (paramsOf r) (bound r symbols) :=
    (bound_spec hcheck hr hsymbols).imp fun _ _ h => ⟨h.1, h.2.1⟩
  unfold Alternative.apply Rule.apply
  cases ha : r.action with
  | none => rfl
  | some action =>
    rw [show paramsOf r = action.params by rw [paramsOf, ha]; rfl] at hbound
    simp only [mapM_value hbound]

end

end Listing

/-! ### Values of nodes -/

namespace Labelled

variable {name : String} {children : List Labelled}

/-- A helper of an optional symbol passes on its child, if it has one. -/
theorem evaluate_optional {x : Symbol} (h : t.helpers.find? name = some x)
    (hoptional : x.cardinality = .optional) :
    (node name children).evaluate t ctx = (evaluateAll t ctx children).map Action.first := by
  rw [evaluate, h]
  simp only [if_pos hoptional]
  rfl

/-- A helper of a starred symbol gathers its children. -/
theorem evaluate_many {x : Symbol} (h : t.helpers.find? name = some x)
    (hmany : x.cardinality = .many) :
    (node name children).evaluate t ctx = (evaluateAll t ctx children).map .list := by
  rw [evaluate, h]
  simp only [hmany]
  rfl

/-- A label runs the action of its alternative. -/
theorem evaluate_alternative {a : Alternative} (hhelper : t.helpers.find? name = none)
    (hfind : t.alternatives.find? name = some a) :
    (node name children).evaluate t ctx = evaluateAll t ctx children >>= a.apply ctx := by
  rw [evaluate, hhelper, hfind]
  rfl

theorem evaluateAll_cons_eq_ok {c : Labelled} {cs : List Labelled} {vs : List Value} :
    evaluateAll t ctx (c :: cs) = .ok vs ↔
      ∃ v rest, c.evaluate t ctx = .ok v ∧ evaluateAll t ctx cs = .ok rest ∧ vs = v :: rest := by
  rw [evaluateAll, Outcome.cons_eq_ok]

mutual

/-- The nodes of a tree, each a name with its children. -/
def nodes : Labelled → List (String × List Labelled)
  | .token _ => []
  | .node name children => (name, children) :: nodesAll children

def nodesAll : List Labelled → List (String × List Labelled)
  | [] => []
  | c :: cs => c.nodes ++ nodesAll cs

end

end Labelled

/-! ### The shape of derivations -/

mutual

/-- **A derivation has the shape of a symbol**, whatever its literals and patterns take. -/
inductive Fits (s : RuleSet) : Symbol → Derivation → Prop where
  | token {x : Symbol} {text : String} (hkind : x.kind ≠ .rule) (hone : x.cardinality = .one) :
      Fits s x (.token text)
  | rule {x : Symbol} {r : Rule} {q : Nat} {alternative : List Symbol} {ds : List Derivation}
      (hkind : x.kind = .rule) (hone : x.cardinality = .one) (hfind : s.find? x.value = some r)
      (hq : r.alternatives[q]? = some alternative) (h : AllFit s alternative ds) :
      Fits s x (.node x.value q ds)
  | absent {x : Symbol} (hoptional : x.cardinality = .optional) : Fits s x .absent
  | present {x : Symbol} {d : Derivation} (hoptional : x.cardinality = .optional)
      (h : Fits s x.single d) : Fits s x d
  | many {x : Symbol} {n : Nat} {ds : List Derivation} (hmany : x.cardinality = .many)
      (h : AllFit s (List.replicate n x.single) ds) : Fits s x (.many ds)

/-- Derivations have the shapes of symbols, one each. -/
inductive AllFit (s : RuleSet) : List Symbol → List Derivation → Prop where
  | nil : AllFit s [] []
  | cons {x : Symbol} {xs : List Symbol} {d : Derivation} {ds : List Derivation}
      (h : Fits s x d) (hrest : AllFit s xs ds) : AllFit s (x :: xs) (d :: ds)

end

theorem AllFit.length {xs : List Symbol} {ds : List Derivation} (h : AllFit s xs ds) :
    ds.length = xs.length := by
  induction xs generalizing ds with
  | nil =>
    cases h
    rfl
  | cons x xs ih =>
    cases h with
    | cons _ hrest => rw [List.length_cons, List.length_cons, ih hrest]

mutual

/-- Every derivation fits its symbol. -/
theorem Derives.fits {x : Symbol} {cs : List Char} {d : Derivation} :
    Derives s x cs d → Fits s x d
  | .token hkind hone _ => .token hkind hone
  | .rule hkind hone hfind hq h => .rule hkind hone hfind hq h.fits
  | .absent hoptional => .absent hoptional
  | .present hoptional h => .present hoptional h.fits
  | .many hmany h => .many hmany h.fits

theorem DerivesAll.fits {xs : List Symbol} {cs : List Char} {ds : List Derivation} :
    DerivesAll s xs cs ds → AllFit s xs ds
  | .nil => .nil
  | .cons h hrest => .cons h.fits hrest.fits

end

/-! ### The tree of a derivation, taken apart -/

namespace Derivation

variable {n : Names} {x : Symbol} {d : Derivation} {ds : List Derivation}

theorem labelled_token (hone : x.cardinality = .one) (text : String) :
    (token text).labelled s n x = .token text := by
  rw [labelled, Labelled.wrap, if_pos hone]

/-- A node of a rule becomes a node of the label of its alternative. -/
theorem labelled_rule (hone : x.cardinality = .one) {r : Rule} (hfind : s.find? x.value = some r)
    {q : Nat} {symbols : List Symbol} (hq : r.alternatives[q]? = some symbols) :
    (node x.value q ds).labelled s n x = .node (label r.name q) (labelledAll s n symbols ds) := by
  have hname : r.name = x.value := by simpa using List.find?_some hfind
  have halternative : s.alternative x.value q = symbols := by
    rw [RuleSet.alternative, hfind, Option.map_some, Option.getD_some,
      List.getD_eq_getElem?_getD, hq, Option.getD_some]
  rw [labelled, Labelled.wrap, if_pos hone, halternative, hname]

/-- A present optional symbol becomes a node of its helper. -/
theorem labelled_present (hoptional : x.cardinality = .optional) (h : Fits s x.single d) :
    d.labelled s n x = .node (n.name x) [d.labelled s n x.single] := by
  have hx (c : Labelled) : Labelled.wrap n x c = .node (n.name x) [c] :=
    if_neg (by simp [hoptional])
  have hsingle (c : Labelled) : Labelled.wrap n x.single c = c := if_pos rfl
  cases h with
  | token => rw [labelled, labelled, hx, hsingle]
  | rule => rw [labelled, labelled, hx, hsingle]
  | absent h => cases h
  | present h => cases h
  | many h => cases h

/-- A repetition becomes a node of its helper. -/
theorem labelled_many {k : Nat} (h : AllFit s (List.replicate k x.single) ds) :
    (many ds).labelled s n x =
      .node (n.name x) (labelledAll s n (List.replicate k x.single) ds) := by
  rw [labelled, h.length, List.length_replicate]

theorem evaluate_rule {name : String} {r : Rule} (hfind : s.find? name = some r) {q : Nat}
    {symbols : List Symbol} (hq : r.alternatives[q]? = some symbols) :
    (node name q ds).evaluate s ctx = evaluateAll s ctx ds >>= r.apply ctx symbols := by
  have hsymbols : r.alternatives.getD q [] = symbols := by
    rw [List.getD_eq_getElem?_getD, hq, Option.getD_some]
  rw [evaluate, RuleSet.get, hfind, ← hsymbols]
  rfl

end Derivation

namespace Listing

/-! ### Values of derivations -/

/-- The symbols that a repeated symbol repeats have no helper rule. -/
theorem occurs_of_replicate {x : Symbol} {k : Nat} :
    ∀ y ∈ List.replicate k x.single, y.cardinality ≠ .one → s.Occurs y := by
  intro y hy hone
  rw [List.eq_of_mem_replicate hy] at hone
  exact absurd rfl hone

mutual

/-- **The tree of a derivation** has the value of the derivation. -/
theorem evaluate_labelled (hcheck : s.check = .ok ()) (htells : Tells s t) {x : Symbol}
    {d : Derivation} (hx : x.cardinality ≠ .one → s.Occurs x) :
    Fits s x d → (d.labelled s (namesOf s) x).evaluate t ctx = d.evaluate s ctx
  | .token _ hone => by
    rw [Derivation.labelled_token hone]
    rfl
  | .absent hoptional => by
    have hone : x.cardinality ≠ .one := by simp [hoptional]
    rw [Derivation.labelled,
      Labelled.evaluate_optional (htells.helper x (hx hone) hone) hoptional]
    rfl
  | .present hoptional hd => by
    have hone : x.cardinality ≠ .one := by simp [hoptional]
    rw [Derivation.labelled_present hoptional hd,
      Labelled.evaluate_optional (htells.helper x (hx hone) hone) hoptional, Labelled.evaluateAll,
      evaluate_labelled hcheck htells (fun h => absurd rfl h) hd]
    cases d.evaluate s ctx <;> rfl
  | .many hmany hds => by
    have hone : x.cardinality ≠ .one := by simp [hmany]
    rw [Derivation.labelled_many hds,
      Labelled.evaluate_many (htells.helper x (hx hone) hone) hmany,
      evaluateAll_labelled hcheck htells occurs_of_replicate hds, Derivation.evaluate]
  | @Fits.rule _ _ r q symbols ds _ hone hfind hq hds => by
    -- both sides evaluate the parts and go on with the rule: the tree with its parameters bound
    have hr : r ∈ s.rules := List.mem_of_find?_eq_some hfind
    have hsymbols : symbols ∈ r.alternatives := List.mem_of_getElem? hq
    rw [Derivation.labelled_rule hone hfind hq, Labelled.evaluate_alternative
      (htells.unhelped r.name q) (htells.alternative r hr q symbols hq),
      evaluateAll_labelled hcheck htells (fun y hy _ => RuleSet.occurs_of_find hfind hq y hy) hds,
      Derivation.evaluate_rule hfind hq]
    congr 1
    funext values
    exact apply_bound hcheck hr hsymbols q

/-- The translated children evaluate to what the derivations do. -/
theorem evaluateAll_labelled (hcheck : s.check = .ok ()) (htells : Tells s t) {xs : List Symbol}
    {ds : List Derivation} (hxs : ∀ x ∈ xs, x.cardinality ≠ .one → s.Occurs x) :
    AllFit s xs ds → Labelled.evaluateAll t ctx
      (Derivation.labelledAll s (namesOf s) xs ds) = Derivation.evaluateAll s ctx ds
  | .nil => rfl
  | .cons hd hds => by
    obtain ⟨hx, hxs⟩ := List.forall_mem_cons.mp hxs
    rw [Derivation.labelledAll, Labelled.evaluateAll, evaluate_labelled hcheck htells hx hd,
      evaluateAll_labelled hcheck htells hxs hds, Derivation.evaluateAll]

end

/-! ### What actions receive -/

section

variable {n : Names}

/-- **What an action receives for a symbol** from its tree: null for an optional symbol that is
absent, the value of what is there, and a list for a repeated symbol. -/
def Receives (n : Names) (t : Tables) (ctx : ReadingContext) (x : Symbol) (c : Labelled)
    (v : Value) : Prop :=
  match x.cardinality with
  | .one => c.evaluate t ctx = .ok v
  | .optional => (c = .node (n.name x) [] ∧ v = .null) ∨
      ∃ part, c = .node (n.name x) [part] ∧ part.evaluate t ctx = .ok v
  | .many => ∃ items vs, c = .node (n.name x) items ∧
      Labelled.evaluateAll t ctx items = .ok vs ∧ v = .list vs

/-- **What an action receives for symbols**: one value for each, in their order. -/
inductive ReceivesAll (n : Names) (t : Tables) (ctx : ReadingContext) :
    List Symbol → List Labelled → List Value → Prop where
  | nil : ReceivesAll n t ctx [] [] []
  | cons {x : Symbol} {c : Labelled} {v : Value} {xs : List Symbol} {cs : List Labelled}
      {vs : List Value} (h : Receives n t ctx x c v) (hrest : ReceivesAll n t ctx xs cs vs) :
      ReceivesAll n t ctx (x :: xs) (c :: cs) (v :: vs)

theorem ReceivesAll.length {xs : List Symbol} {cs : List Labelled} {vs : List Value}
    (h : ReceivesAll n t ctx xs cs vs) : vs.length = xs.length := by
  induction h with
  | nil => rfl
  | cons _ _ ih => rw [List.length_cons, List.length_cons, ih]

/-- Each child is received with the value its symbol promises. -/
theorem receives_of_derives (htells : Tells s t) {x : Symbol} {cs : List Char} {d : Derivation}
    (hx : s.Occurs x) (h : Derives s x cs d) {v : Value}
    (hv : (d.labelled s (namesOf s) x).evaluate t ctx = .ok v) :
    Receives (namesOf s) t ctx x (d.labelled s (namesOf s) x) v := by
  unfold Receives
  cases h with
  | token _ hone => simpa only [hone] using hv
  | rule _ hone => simpa only [hone] using hv
  | absent hoptional =>
    have hfind := htells.helper x hx (by simp [hoptional])
    rw [Derivation.labelled, Labelled.evaluate_optional hfind hoptional] at hv
    cases hv
    simp only [hoptional]
    exact .inl ⟨rfl, rfl⟩
  | present hoptional hd =>
    have hfind := htells.helper x hx (by simp [hoptional])
    rw [Derivation.labelled_present hoptional hd.fits] at hv ⊢
    rw [Labelled.evaluate_optional hfind hoptional] at hv
    obtain ⟨vs, hvs, rfl⟩ := Outcome.map_eq_ok.mp hv
    obtain ⟨w, rest, hw, -, rfl⟩ := Labelled.evaluateAll_cons_eq_ok.mp hvs
    simp only [hoptional]
    exact .inr ⟨_, rfl, hw⟩
  | many hmany hds =>
    have hfind := htells.helper x hx (by simp [hmany])
    rw [Derivation.labelled_many hds.fits] at hv ⊢
    rw [Labelled.evaluate_many hfind hmany] at hv
    obtain ⟨vs, hvs, rfl⟩ := Outcome.map_eq_ok.mp hv
    simp only [hmany]
    exact ⟨_, vs, rfl, hvs, rfl⟩

/-- **An action receives one value for each symbol** of the alternative, in order. -/
theorem receivesAll_of_derivesAll (htells : Tells s t) {xs : List Symbol} {cs : List Char}
    {ds : List Derivation} (hxs : ∀ x ∈ xs, s.Occurs x) (h : DerivesAll s xs cs ds) {vs : List Value}
    (hvs : Labelled.evaluateAll t ctx (Derivation.labelledAll s (namesOf s) xs ds) = .ok vs) :
    ReceivesAll (namesOf s) t ctx xs (Derivation.labelledAll s (namesOf s) xs ds) vs := by
  induction xs generalizing cs ds vs with
  | nil =>
    obtain ⟨-, rfl⟩ := derivesAll_nil_iff.mp h
    cases hvs
    exact .nil
  | cons x xs ih =>
    obtain ⟨hx, hxs⟩ := List.forall_mem_cons.mp hxs
    obtain ⟨cs₁, cs₂, d, ds, -, rfl, hd, hds⟩ := derivesAll_cons_iff.mp h
    rw [Derivation.labelledAll] at hvs ⊢
    obtain ⟨v, vs, hv, hrest, rfl⟩ := Labelled.evaluateAll_cons_eq_ok.mp hvs
    exact .cons (receives_of_derives htells hx hd hv) (ih hxs hds hrest)

end

/-! ### Every node -/

/-- **A node where evaluation cannot get stuck**: its name is that of a helper rule, or the label of
an alternative whose symbols have one value each, on which the alternative runs. -/
inductive Evaluable (s : RuleSet) (t : Tables) (ctx : ReadingContext) :
    String × List Labelled → Prop where
  | helper {name : String} {children : List Labelled} {x : Symbol} (hx : s.Occurs x)
      (hone : x.cardinality ≠ .one) (hfind : t.helpers.find? name = some x) : Evaluable s t ctx (name, children)
  | alternative {name : String} {children : List Labelled} {r : Rule} {q : Nat}
      {symbols : List Symbol} (hr : r ∈ s.rules) (hq : r.alternatives[q]? = some symbols)
      (hhelper : t.helpers.find? name = none)
      (hfind : t.alternatives.find? name = some ⟨r, q, bound r symbols⟩)
      (hruns : ∀ values, Labelled.evaluateAll t ctx children = .ok values →
        ReceivesAll (namesOf s) t ctx symbols children values ∧
          Runs r symbols values ctx ((Labelled.node name children).evaluate t ctx)) :
      Evaluable s t ctx (name, children)

mutual

/-- **Evaluation cannot get stuck** at any node of the tree of a derivation. -/
theorem evaluable_of_derives (hcheck : s.check = .ok ()) (htells : Tells s t) {x : Symbol}
    {cs : List Char} {d : Derivation} (hx : x.cardinality ≠ .one → s.Occurs x) :
    Derives s x cs d → ∀ e ∈ (d.labelled s (namesOf s) x).nodes, Evaluable s t ctx e
  | .token _ hone _ => by
    rw [Derivation.labelled_token hone]
    exact fun e he => absurd he List.not_mem_nil
  | .absent hoptional => by
    have hone : x.cardinality ≠ .one := by simp [hoptional]
    exact List.forall_mem_singleton.mpr (.helper (hx hone) hone (htells.helper x (hx hone) hone))
  | .present hoptional hd => by
    have hone : x.cardinality ≠ .one := by simp [hoptional]
    rw [Derivation.labelled_present hoptional hd.fits]
    refine List.forall_mem_cons.mpr
      ⟨.helper (hx hone) hone (htells.helper x (hx hone) hone), ?_⟩
    rw [Labelled.nodesAll, Labelled.nodesAll, List.append_nil]
    exact evaluable_of_derives hcheck htells (fun h => absurd rfl h) hd
  | .many hmany hds => by
    have hone : x.cardinality ≠ .one := by simp [hmany]
    rw [Derivation.labelled_many hds.fits]
    exact List.forall_mem_cons.mpr ⟨.helper (hx hone) hone (htells.helper x (hx hone) hone),
      evaluable_of_derivesAll hcheck htells occurs_of_replicate hds⟩
  | @Derives.rule _ _ _ r q symbols ds _ hone hfind hq hds => by
    have hr : r ∈ s.rules := List.mem_of_find?_eq_some hfind
    have hsymbols : symbols ∈ r.alternatives := List.mem_of_getElem? hq
    have hoccurs := RuleSet.occurs_of_find hfind hq
    have hhelper := htells.unhelped r.name q
    have halternative := htells.alternative r hr q symbols hq
    rw [Derivation.labelled_rule hone hfind hq]
    refine List.forall_mem_cons.mpr ⟨.alternative hr hq hhelper halternative fun values hvalues => ?_,
      evaluable_of_derivesAll hcheck htells (fun y hy _ => hoccurs y hy) hds⟩
    -- one value for each symbol is what keeps the positions of the arguments inside the values
    have hreceives := receivesAll_of_derivesAll htells hoccurs hds hvalues
    refine ⟨hreceives, ?_⟩
    rw [Labelled.evaluate_alternative hhelper halternative, hvalues]
    exact runs_apply hcheck hr hsymbols hreceives.length q

/-- Every node of the translation can be evaluated. -/
theorem evaluable_of_derivesAll (hcheck : s.check = .ok ()) (htells : Tells s t) {xs : List Symbol}
    {cs : List Char} {ds : List Derivation} (hxs : ∀ x ∈ xs, x.cardinality ≠ .one → s.Occurs x) :
    DerivesAll s xs cs ds → ∀ e ∈ Labelled.nodesAll (Derivation.labelledAll s (namesOf s) xs ds),
      Evaluable s t ctx e
  | .nil => fun e he => absurd he List.not_mem_nil
  | .cons hd hds => by
    obtain ⟨hx, hxs⟩ := List.forall_mem_cons.mp hxs
    exact List.forall_mem_append.mpr
      ⟨evaluable_of_derives hcheck htells hx hd, evaluable_of_derivesAll hcheck htells hxs hds⟩

end

/-! ### Failures -/

/-- **An action fails at a node**, on the values of the children and with all of its arguments. -/
def ActionFails (s : RuleSet) (t : Tables) (ctx : ReadingContext) (f : Fault)
    (e : String × List Labelled) : Prop :=
  ∃ r ∈ s.rules, ∃ symbols ∈ r.alternatives, ∃ action, r.action = some action ∧ ∃ values args,
    Labelled.evaluateAll t ctx e.2 = .ok values ∧
      List.Forall₂ (Given symbols values) action.params args ∧
        Action.run action.name values (Table.ofList args) ctx = .error f

/-- Where the children have values, only the action can fail. -/
theorem Evaluable.actionFails {name : String} {children : List Labelled} {values : List Value}
    {f : Fault} (h : Evaluable s t ctx (name, children))
    (hvalues : Labelled.evaluateAll t ctx children = .ok values)
    (hf : (Labelled.node name children).evaluate t ctx = .error f) :
    ActionFails s t ctx f (name, children) := by
  cases h with
  | helper _ _ hfind =>
    rw [Labelled.evaluate, hfind, hvalues] at hf
    cases hf
  | @alternative _ _ r q symbols hr hq _ _ hruns =>
    have hrun := (hruns values hvalues).2
    unfold Runs at hrun
    split at hrun
    · cases hf.symm.trans hrun
    · rename_i action haction
      obtain ⟨args, hgiven, hargs⟩ := hrun
      exact ⟨r, hr, symbols, List.mem_of_getElem? hq, action, haction, values, args, hvalues,
        hgiven, hargs ▸ hf⟩

mutual

/-- **Where evaluation fails, an action did.** -/
theorem exists_actionFails {f : Fault} : ∀ c : Labelled, (∀ e ∈ c.nodes, Evaluable s t ctx e) →
    c.evaluate t ctx = .error f → ∃ e ∈ c.nodes, ActionFails s t ctx f e
  | .token _, _, hf => by cases hf
  | .node name children, h, hf => by
    obtain ⟨hnode, hchildren⟩ := List.forall_mem_cons.mp h
    -- a child fails, and then by induction an action below it, or all have values and this one does
    cases hvalues : Labelled.evaluateAll t ctx children with
    | ok values => exact ⟨_, List.mem_cons_self, hnode.actionFails hvalues hf⟩
    | error g =>
      rw [Labelled.evaluate, hvalues] at hf
      cases hf
      obtain ⟨e, he, hfails⟩ := exists_actionFails_all children hchildren hvalues
      exact ⟨e, List.mem_cons_of_mem _ he, hfails⟩

theorem exists_actionFails_all {f : Fault} : ∀ cs : List Labelled,
    (∀ e ∈ Labelled.nodesAll cs, Evaluable s t ctx e) → Labelled.evaluateAll t ctx cs = .error f →
      ∃ e ∈ Labelled.nodesAll cs, ActionFails s t ctx f e
  | [], _, hf => by cases hf
  | c :: cs, h, hf => by
    obtain ⟨hc, hcs⟩ := List.forall_mem_append.mp h
    rw [Labelled.evaluateAll] at hf
    rcases Outcome.bind_eq_error.mp hf with hf | ⟨v, -, hf⟩
    · obtain ⟨e, he, hfails⟩ := exists_actionFails c hc hf
      exact ⟨e, List.mem_append_left _ he, hfails⟩
    · rcases Outcome.bind_eq_error.mp hf with hf | ⟨vs, -, hf⟩
      · obtain ⟨e, he, hfails⟩ := exists_actionFails_all cs hcs hf
        exact ⟨e, List.mem_append_right _ he, hfails⟩
      · cases hf

end

/-! ### Complete sets -/

/-- **A complete set cannot break evaluation.** In the tables of its listing, every alternative
stands under its label with each parameter of its action bound: a reference to the first symbol that
refers to its rule, a position to itself inside the alternative. In the tree of every derivation,
every node has the name of a helper rule, or the label of an alternative that has one value for each
of its symbols, in order, and whose action is given an argument for each of its parameters. The tree
has the value of the derivation, and it has none only if an action fails. -/
theorem evaluation_safe (hnames : s.names.Nodup) (hcheck : s.check = .ok ()) :
    ∃ t, tables s = .ok t ∧
      (∀ r ∈ s.rules, ∀ q symbols, r.alternatives[q]? = some symbols → ∃ params,
        t.alternatives.find? (label r.name q) = some ⟨r, q, params⟩ ∧
          List.Forall₂ (fun p e => e.1 = p.key ∧ Resolves symbols p.source e.2) (paramsOf r)
            params) ∧
      ∀ rule cs d, Derives s (.rule rule) cs d → ∀ ctx,
        (∀ e ∈ (d.labelled s (namesOf s) (.rule rule)).nodes, Evaluable s t ctx e) ∧
        (d.labelled s (namesOf s) (.rule rule)).evaluate t ctx = d.evaluate s ctx ∧
        ∀ f, (d.labelled s (namesOf s) (.rule rule)).evaluate t ctx = .error f →
          ∃ e ∈ (d.labelled s (namesOf s) (.rule rule)).nodes, ActionFails s t ctx f e := by
  obtain ⟨t, ht, htells⟩ := exists_tables hnames hcheck
  refine ⟨t, ht, fun r hr q symbols hq => ?_, fun rule cs d hd ctx => ?_⟩
  · refine ⟨bound r symbols, htells.alternative r hr q symbols hq, ?_⟩
    exact (bound_spec hcheck hr (List.mem_of_getElem? hq)).imp fun _ _ h => ⟨h.1, h.2.2⟩
  · have hx : (Symbol.rule rule).cardinality ≠ .one → s.Occurs (.rule rule) := absurd rfl
    have hnodes : ∀ e ∈ (d.labelled s (namesOf s) (.rule rule)).nodes, Evaluable s t ctx e :=
      evaluable_of_derives hcheck htells hx hd
    exact ⟨hnodes, evaluate_labelled hcheck htells hx hd.fits, fun f => exists_actionFails _ hnodes⟩

/-- A text without a count: its items are read, and the count is left out. -/
theorem evaluation_safe_order : order.names.Nodup ∧ order.check = .ok () ∧
    ∃ d, Derives order (.rule "order") [':', 'a', 'b'] d ∧ ∃ t, tables order = .ok t ∧
      (d.labelled order (namesOf order) (.rule "order")).evaluate t {} =
        .ok (.object [("$class", .text "Order"), ("items", .list [.text "a", .text "b"])]) := by
  have hnames : order.names.Nodup := by decide
  have hcheck : order.check = .ok () := by rfl
  have hliteral (text : String) :
      Derives order (.literal text) text.toList (.token (String.ofList text.toList)) :=
    .token (fun h => nomatch h) rfl (Symbol.accepts_literal_iff.mpr rfl)
  have ha : Derives order (.rule "Item") ['a'] (.node "Item" 0 [.token "a"]) :=
    .rule rfl rfl rfl rfl (.cons (hliteral "a") .nil)
  have hb : Derives order (.rule "Item") ['b'] (.node "Item" 1 [.token "b"]) :=
    .rule rfl rfl rfl rfl (.cons (hliteral "b") .nil)
  have hitems : Derives order (.rule "Item" .many) ['a', 'b'] _ :=
    .many (n := 2) rfl (.cons ha (.cons hb .nil))
  have hderives : Derives order (.rule "order") [':', 'a', 'b'] (.node "order" 0 _) :=
    .rule rfl rfl rfl rfl (.cons (.absent rfl) (.cons (hliteral ":") (.cons hitems .nil)))
  obtain ⟨t, ht, -, hevaluation⟩ := evaluation_safe hnames hcheck
  refine ⟨hnames, hcheck, _, hderives, t, ht, ?_⟩
  rw [(hevaluation _ _ _ hderives {}).2.1]
  rfl

end Listing

end Covenant
