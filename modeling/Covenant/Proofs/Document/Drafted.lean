import Covenant.Proofs.Markup.Layout

/-!
Two ways to lay out the same data.

* `Drafter.membersBy`: a template whose bound values are laid out in a way of their own.
* `Drafter.Shows`: the values that a template shows of some data, at any depth.
* `Drafter.Follows`: one layout succeeds where another does, and what they give is related just
  where the values that are shown allow it.
* `Drafter.Congruent.level_follows`: layouts of single values that follow each other make layouts of whole
  templates that do.
-/

namespace Covenant

namespace Drafter

open Markup

/-! ### Bound values in a way of their own -/

section By

variable (c : Drafter) (value : String → Option String → Layout)

mutual

/-- Lays out a node, whose bound values are laid out in the given way. -/
def nodeBy : Node → Layout
  | .text body _ _ => text body
  | .binding field format _ => value field format
  | .formatted field format _ => value field (some format)
  | .shown field whenTrue _ => conditional field whenTrue ""
  | .choice field whenTrue whenFalse _ => conditional field whenTrue whenFalse
  | .block kind field nestedNodes _ =>
    let members := membersBy nestedNodes
    match kind with
    | .clause => c.nested .clause field members
    | .within => c.nested .within field members
    | .list style => c.list style field members
  | .expression body _ => formula body
  | .foreign _ field _ _ => foreign field

/-- The members of a level, whose bound values are laid out in the given way. -/
def membersBy : List Node → List Member
  | [] => []
  | n :: ns => ⟨n, nodeBy n⟩ :: membersBy ns

end

theorem membersBy_eq_map (nodes : List Node) :
    c.membersBy value nodes = nodes.map fun n => ⟨n, c.nodeBy value n⟩ := by
  induction nodes with
  | nil => rfl
  | cons n ns ih => rw [membersBy, ih, List.map_cons]

theorem leadMembers_membersBy (start : String) (nodes : List Node) :
    leadMembers Member.node textMember start (c.membersBy value nodes) =
      (lead start nodes).map (c.membersBy value) := by
  have hmembers : c.membersBy value = List.map fun n => ⟨n, c.nodeBy value n⟩ :=
    funext (membersBy_eq_map c value)
  rw [hmembers]
  exact leadMembers_map (fun _ => rfl) (fun _ _ _ => rfl) start nodes

mutual

theorem nodeBy_boundValue : ∀ n, c.nodeBy c.boundValue n = c.node n
  | .text .. => rfl
  | .binding .. => rfl
  | .formatted .. => rfl
  | .shown .. => rfl
  | .choice .. => rfl
  | .block .clause field inner _ => congrArg (c.nested .clause field) (membersBy_boundValue inner)
  | .block .within field inner _ => congrArg (c.nested .within field) (membersBy_boundValue inner)
  | .block (.list style) field inner _ => congrArg (c.list style field) (membersBy_boundValue inner)
  | .expression .. => rfl
  | .foreign .. => rfl

/-- The layout of templates is one of these. -/
theorem membersBy_boundValue : ∀ nodes, c.membersBy c.boundValue nodes = c.members nodes
  | [] => rfl
  | n :: ns => by rw [membersBy, members, nodeBy_boundValue n, membersBy_boundValue ns]

end

end By

/-! ### What a template shows -/

/-- A value that is shown: the property that it is the value of, and the format given for it. -/
structure Shown where
  property : Property
  value : Value
  format : Option String

/-- What a node shows that binds a field in a format. -/
structure Binds (data : Value) (d : SchemaType) (field : String) (format : Option String)
    (x : Shown) : Prop where
  property : Drafter.property d field = .ok x.property
  value : entry data field = .ok x.value
  format : x.format = format

/-- **The values that a template shows** of data of a type: those that its nodes bind, and those
that its blocks show of the values that they lay out. -/
inductive Shows (c : Drafter) : List Node → Value → SchemaType → Shown → Prop
  | binding {nodes data d x field format place} (hn : .binding field format place ∈ nodes)
      (hx : Binds data d field format x) : Shows c nodes data d x
  | formatted {nodes data d x field format place} (hn : .formatted field format place ∈ nodes)
      (hx : Binds data d field (some format) x) : Shows c nodes data d x
  | nested {nodes data d x kind field inner place p v e} (hn : .block kind field inner place ∈ nodes)
      (hkind : ∀ style, kind ≠ .list style) (hp : property d field = .ok p)
      (hv : entry data field = .ok v) (hnull : v.isNull = false) (he : c.valueType p v = .ok e)
      (hx : Shows c inner v e x) : Shows c nodes data d x
  | item {nodes data d x style field inner place p v vs w e}
      (hn : .block (.list style) field inner place ∈ nodes) (hp : property d field = .ok p)
      (hv : entry data field = .ok v) (hset : v.isSet = true) (hvs : v.members? = some vs)
      (hw : w ∈ vs) (he : c.valueType p w = .ok e) (hx : Shows c inner w e x) :
      Shows c nodes data d x

section Shows

variable {c : Drafter} {nodes led : List Node} {n : Node} {data : Value} {d : SchemaType} {x : Shown}

theorem Shows.mono {nodes' : List Node} (h : c.Shows nodes data d x)
    (hsub : ∀ n ∈ nodes, n ∈ nodes') : c.Shows nodes' data d x := by
  cases h with
  | binding hn hx => exact .binding (hsub _ hn) hx
  | formatted hn hx => exact .formatted (hsub _ hn) hx
  | nested hn hkind hp hv hnull he hx => exact .nested (hsub _ hn) hkind hp hv hnull he hx
  | item hn hp hv hset hvs hw he hx => exact .item (hsub _ hn) hp hv hset hvs hw he hx

/-- What a level shows is what its nodes show. -/
theorem shows_iff : c.Shows nodes data d x ↔ ∃ n ∈ nodes, c.Shows [n] data d x := by
  constructor
  · intro h
    cases h with
    | binding hn hx => exact ⟨_, hn, .binding (List.mem_singleton_self _) hx⟩
    | formatted hn hx => exact ⟨_, hn, .formatted (List.mem_singleton_self _) hx⟩
    | nested hn hkind hp hv hnull he hx =>
      exact ⟨_, hn, .nested (List.mem_singleton_self _) hkind hp hv hnull he hx⟩
    | item hn hp hv hset hvs hw he hx =>
      exact ⟨_, hn, .item (List.mem_singleton_self _) hp hv hset hvs hw he hx⟩
  · rintro ⟨n, hn, h⟩
    exact h.mono fun m hm => List.mem_singleton.mp hm ▸ hn

theorem shows_cons_iff {ns : List Node} :
    c.Shows (n :: ns) data d x ↔ c.Shows [n] data d x ∨ c.Shows ns data d x := by
  rw [shows_iff, List.exists_mem_cons_iff, ← shows_iff]

theorem not_shows_nil : ¬ c.Shows [] data d x :=
  fun h => nomatch shows_iff.mp h

/-- What a single node shows: nothing, unless it binds a value or is a block. -/
theorem not_shows_of_plain (hbinding : ∀ field format place, n ≠ .binding field format place)
    (hformatted : ∀ field format place, n ≠ .formatted field format place)
    (hblock : ∀ kind field inner place, n ≠ .block kind field inner place) :
    ¬ c.Shows [n] data d x := by
  intro h
  cases h with
  | binding hn _ => exact hbinding _ _ _ (List.mem_singleton.mp hn).symm
  | formatted hn _ => exact hformatted _ _ _ (List.mem_singleton.mp hn).symm
  | nested hn => exact hblock _ _ _ _ (List.mem_singleton.mp hn).symm
  | item hn => exact hblock _ _ _ _ (List.mem_singleton.mp hn).symm

theorem not_shows_text {last : Bool} {body : String} {place : Text.Position} :
    ¬ c.Shows [.text body last place] data d x :=
  not_shows_of_plain (by simp) (by simp) (by simp)

theorem shows_binding_iff {field : String} {format : Option String} {place : Text.Position} :
    c.Shows [.binding field format place] data d x ↔ Binds data d field format x := by
  constructor
  · intro h
    cases h with
    | binding hn hx =>
      cases List.mem_singleton.mp hn
      exact hx
    | formatted hn => cases List.mem_singleton.mp hn
    | nested hn => cases List.mem_singleton.mp hn
    | item hn => cases List.mem_singleton.mp hn
  · exact .binding (List.mem_singleton_self _)

theorem shows_formatted_iff {field format : String} {place : Text.Position} :
    c.Shows [.formatted field format place] data d x ↔ Binds data d field (some format) x := by
  constructor
  · intro h
    cases h with
    | binding hn => cases List.mem_singleton.mp hn
    | formatted hn hx =>
      cases List.mem_singleton.mp hn
      exact hx
    | nested hn => cases List.mem_singleton.mp hn
    | item hn => cases List.mem_singleton.mp hn
  · exact .formatted (List.mem_singleton_self _)

section Block

variable {kind : BlockKind} {style : ListStyle} {field : String} {inner : List Node}
  {place : Text.Position} {p : Property} {v : Value}

/-- A block for no value shows nothing. -/
theorem not_shows_null (hkind : ∀ style, kind ≠ .list style) (hv : entry data field = .ok v) (hnull : v.isNull = true) :
    ¬ c.Shows [.block kind field inner place] data d x := by
  intro h
  cases h with
  | binding hn => cases List.mem_singleton.mp hn
  | formatted hn => cases List.mem_singleton.mp hn
  | nested hn _ _ hv' hnull' =>
    cases List.mem_singleton.mp hn
    cases hv.symm.trans hv'
    cases hnull.symm.trans hnull'
  | item hn =>
    cases List.mem_singleton.mp hn
    exact hkind _ rfl

/-- A block shows what its nodes show of its value. -/
theorem shows_nested_iff (hkind : ∀ style, kind ≠ .list style) (hp : property d field = .ok p)
    (hv : entry data field = .ok v) (hnull : v.isNull = false) {e : SchemaType}
    (he : c.valueType p v = .ok e) :
    c.Shows [.block kind field inner place] data d x ↔ c.Shows inner v e x := by
  constructor
  · intro h
    cases h with
    | binding hn => cases List.mem_singleton.mp hn
    | formatted hn => cases List.mem_singleton.mp hn
    | nested hn _ hp' hv' _ he' hx =>
      cases List.mem_singleton.mp hn
      cases hp.symm.trans hp'
      cases hv.symm.trans hv'
      cases he.symm.trans he'
      exact hx
    | item hn =>
      cases List.mem_singleton.mp hn
      exact absurd rfl (hkind _)
  · exact .nested (List.mem_singleton_self _) hkind hp hv hnull he

/-- A list shows what its nodes show of its items. -/
theorem shows_list_iff (hp : property d field = .ok p) (hv : entry data field = .ok v) :
    c.Shows [.block (.list style) field inner place] data d x ↔ v.isSet = true ∧
      ∃ vs, v.members? = some vs ∧ ∃ w ∈ vs, ∃ e, c.valueType p w = .ok e ∧ c.Shows inner w e x := by
  constructor
  · intro h
    cases h with
    | binding hn => cases List.mem_singleton.mp hn
    | formatted hn => cases List.mem_singleton.mp hn
    | nested hn hkind =>
      cases List.mem_singleton.mp hn
      exact absurd rfl (hkind _)
    | item hn hp' hv' hset hvs hw he hx =>
      cases List.mem_singleton.mp hn
      cases hp.symm.trans hp'
      cases hv.symm.trans hv'
      exact ⟨hset, _, hvs, _, hw, _, he, hx⟩
  · rintro ⟨hset, vs, hvs, w, hw, e, he, hx⟩
    exact .item (List.mem_singleton_self _) hp hv hset hvs hw he hx

end Block

/-- A text in front of a level shows nothing more. -/
theorem shows_lead {start : String} (h : lead start nodes = .ok led) :
    c.Shows led data d x ↔ c.Shows nodes data d x := by
  constructor
  · intro hled
    obtain ⟨n, hn, hshows⟩ := shows_iff.mp hled
    rcases mem_of_lead h hn with hn | ⟨body, last, place, rfl⟩
    · exact shows_iff.mpr ⟨n, hn, hshows⟩
    · exact absurd hshows not_shows_text
  · intro hnodes
    obtain ⟨n, hn, hshows⟩ := shows_iff.mp hnodes
    refine forall_of_lead (P := fun n => c.Shows [n] data d x → c.Shows led data d x)
      (fun _ _ _ ht => absurd ht not_shows_text) h (fun m hm hm' => ?_) n hn hshows
    exact shows_iff.mpr ⟨m, hm, hm'⟩

end Shows

/-! ### Layouts that follow each other -/

/-- **A relation that goes through documents**: it holds of documents one after the other as it
does of each part, of leaves that show no value, and of inner nodes as it does of their children. -/
structure Congruent (R : List Document → List Document → Prop) : Prop where
  nil : R [] []
  append {ds es ds' es'} (h : ds.length = es.length) :
    R (ds ++ ds') (es ++ es') ↔ R ds es ∧ R ds' es'
  leaf {kind} (hleaf : kind.isLeaf = true) (hkind : kind ≠ .variable) (text name value attributes) :
    R [.node kind text name value attributes []] [.node kind text name value attributes []]
  inner {kind ds es} (hleaf : kind.isLeaf = false) (hkind : kind ≠ .document) (name attributes) :
    R [.node kind none name .null attributes ds] [.node kind none name .null attributes es] ↔ R ds es

/-- **One layout follows another**: it succeeds where the other does, with as many documents, and
these are related if what is shown allows it, and only then. -/
def Follows (R : List Document → List Document → Prop) (Q S : Shown → Prop)
    (o o' : Outcome (List Document)) : Prop :=
  ∀ ds, o = .ok ds → ∃ es, o' = .ok es ∧ ds.length = es.length ∧ (R ds es ↔ ∀ x, S x → Q x)

section Follows

variable {R : List Document → List Document → Prop} {Q S S' : Shown → Prop}
  {o o' : Outcome (List Document)}

theorem Follows.congr (h : Follows R Q S o o') (hS : ∀ x, S' x ↔ S x) : Follows R Q S' o o' := by
  rwa [show S' = S from funext fun x => propext (hS x)]

theorem Follows.bind {α : Type} {a : Outcome α} {f g : α → Outcome (List Document)}
    (h : ∀ x, a = .ok x → Follows R Q S (f x) (g x)) : Follows R Q S (a >>= f) (a >>= g) := by
  intro ds hds
  obtain ⟨x, hx, hds⟩ := Outcome.bind_eq_ok.mp hds
  obtain ⟨es, hes, hrel⟩ := h x hx ds hds
  exact ⟨es, Outcome.bind_eq_ok.mpr ⟨x, hx, hes⟩, hrel⟩

/-- What fails is followed by anything. -/
theorem follows_error (f : Fault) : Follows R Q S (.error f) o' :=
  fun _ h => nomatch h

variable (hR : Congruent R)
include hR

theorem Congruent.follows_nil (hS : ∀ x, ¬ S x) : Follows R Q S (.ok []) (.ok []) := by
  rintro ds hds
  cases hds
  exact ⟨[], rfl, rfl, fun _ x hx => absurd hx (hS x), fun _ => hR.nil⟩

theorem Congruent.follows_leaf (hS : ∀ x, ¬ S x) {kind : DocumentKind} (hleaf : kind.isLeaf = true)
    (hkind : kind ≠ .variable) (text name : Option String) (value : Value)
    (attributes : Table Value) :
    Follows R Q S (.ok [.node kind text name value attributes []])
      (.ok [.node kind text name value attributes []]) := by
  rintro ds hds
  cases hds
  exact ⟨_, rfl, rfl, fun _ x hx => absurd hx (hS x),
    fun _ => hR.leaf hleaf hkind text name value attributes⟩

theorem Congruent.follows_inner (h : Follows R Q S o o') {kind : DocumentKind}
    (hleaf : kind.isLeaf = false) (hkind : kind ≠ .document) (name : Option String)
    (attributes : Table Value) :
    Follows R Q S (o >>= fun ds => .ok [.node kind none name .null attributes ds])
      (o' >>= fun ds => .ok [.node kind none name .null attributes ds]) := by
  intro docs hdocs
  obtain ⟨ds, hds, hdocs⟩ := Outcome.bind_eq_ok.mp hdocs
  cases hdocs
  obtain ⟨es, hes, -, hrel⟩ := h ds hds
  exact ⟨_, Outcome.bind_eq_ok.mpr ⟨es, hes, rfl⟩, rfl, (hR.inner hleaf hkind name attributes).trans hrel⟩

/-- **Documents one after the other.** -/
theorem Congruent.follows_append {T : Shown → Prop} {u u' : Outcome (List Document)}
    (h : Follows R Q S o o') (h' : Follows R Q T u u') {ds ds' : List Document} (hds : o = .ok ds)
    (hds' : u = .ok ds') : ∃ es es', o' = .ok es ∧ u' = .ok es' ∧
      (ds ++ ds').length = (es ++ es').length ∧
        (R (ds ++ ds') (es ++ es') ↔ ∀ x, S x ∨ T x → Q x) := by
  obtain ⟨es, hes, hlength, hrel⟩ := h ds hds
  obtain ⟨es', hes', hlength', hrel'⟩ := h' ds' hds'
  refine ⟨es, es', hes, hes', by simp [hlength, hlength'], ?_⟩
  rw [hR.append hlength, hrel, hrel', ← forall_and]
  exact forall_congr' fun x => or_imp.symm

end Follows

section Layouts

variable {R : List Document → List Document → Prop} {Q : Shown → Prop} {c : Drafter}
  {value value' : String → Option String → Layout} {nodes : List Node}

/-- A node is laid out in one way as it is in the other. -/
def NodeFollows (R : List Document → List Document → Prop) (Q : Shown → Prop) (c : Drafter)
    (value value' : String → Option String → Layout) (n : Node) : Prop :=
  ∀ data d, Follows R Q (c.Shows [n] data d) (c.nodeBy value n data d) (c.nodeBy value' n data d)

variable (hR : Congruent R)
include hR

/-- A level is laid out as its nodes are. -/
theorem Congruent.level_of_nodes (h : ∀ n ∈ nodes, NodeFollows R Q c value value' n) (data : Value)
    (d : SchemaType) : Follows R Q (c.Shows nodes data d) (level (c.membersBy value nodes) data d)
      (level (c.membersBy value' nodes) data d) := by
  induction nodes with
  | nil => exact hR.follows_nil fun _ => not_shows_nil
  | cons n ns ih =>
    intro docs hdocs
    obtain ⟨hn, hns⟩ := List.forall_mem_cons.mp h
    obtain ⟨first, rest, hfirst, hrest, rfl⟩ := level_cons_eq_ok.mp hdocs
    obtain ⟨es, es', hes, hes', hlength, hrel⟩ :=
      hR.follows_append (hn data d) (ih hns) hfirst hrest
    refine ⟨es ++ es', level_cons hes hes', hlength, hrel.trans ?_⟩
    have hcons : ∀ x, c.Shows (n :: ns) data d x ↔ c.Shows [n] data d x ∨ c.Shows ns data d x :=
      fun _ => shows_cons_iff
    simp only [hcons]

theorem Congruent.text_follows (body : String) (last : Bool) (place : Text.Position) :
    NodeFollows R Q c value value' (.text body last place) := by
  intro data d
  rw [nodeBy, nodeBy]
  unfold text
  split
  · exact hR.follows_nil fun _ => not_shows_text
  · exact hR.follows_leaf (fun _ => not_shows_text) rfl (by simp) _ _ _ _

/-- **An item of a list** is laid out as its nodes are. -/
theorem Congruent.follows_item (h : ∀ n ∈ nodes, NodeFollows R Q c value value' n) (p : Property)
    (start : String) (v : Value) :
    Follows R Q (fun x => ∃ e, c.valueType p v = .ok e ∧ c.Shows nodes v e x)
      ((c.item p start (c.membersBy value nodes) v).map ([·]))
      ((c.item p start (c.membersBy value' nodes) v).map ([·])) := by
  have hitem : ∀ w, (c.item p start (c.membersBy w nodes) v).map ([·]) =
      lead start nodes >>= fun led => c.valueType p v >>= fun e =>
        level (c.membersBy w led) v e >>= fun ds =>
          .ok [.node .listItem none none .null [] ds] := by
    intro w
    rw [item, leadMembers_membersBy]
    cases lead start nodes with
    | error f => rfl
    | ok led =>
      cases c.valueType p v with
      | error f => rfl
      | ok e => 
        simp only [Except.map, bind, Except.bind]
        cases level (c.membersBy w led) v e <;> rfl
  rw [hitem, hitem]
  refine .bind fun led hled => .bind fun e he => ?_
  have hnodes : ∀ n ∈ led, NodeFollows R Q c value value' n := by
    intro n hn
    rcases mem_of_lead hled hn with hn | ⟨body, last, place, rfl⟩
    · exact h n hn
    · exact hR.text_follows body last place
  refine (hR.follows_inner (hR.level_of_nodes hnodes v e) rfl (by simp) none []).congr fun x => ?_
  rw [shows_lead hled]
  constructor
  · rintro ⟨e', he', hx⟩
    cases he.symm.trans he'
    exact hx
  · exact fun hx => ⟨e, he, hx⟩

/-- The items of a list, one after the other. -/
theorem Congruent.follows_items {S : Value × Nat → Shown → Prop}
    {f g : Value × Nat → Outcome Document} {vs : List (Value × Nat)}
    (h : ∀ v ∈ vs, Follows R Q (S v) ((f v).map ([·])) ((g v).map ([·]))) :
    Follows R Q (fun x => ∃ v ∈ vs, S v x) (vs.mapM f) (vs.mapM g) := by
  induction vs with
  | nil => exact hR.follows_nil (by simp)
  | cons v vs ih =>
    intro docs hdocs
    obtain ⟨hv, hvs⟩ := List.forall_mem_cons.mp h
    obtain ⟨first, hfirst, rest, hrest, rfl⟩ := Outcome.mapM_cons_ok.mp hdocs
    obtain ⟨es, es', hes, hes', hlength, hrel⟩ := hR.follows_append hv (ih hvs)
      (Outcome.map_eq_ok.mpr ⟨first, hfirst, rfl⟩) hrest
    obtain ⟨first', hfirst', rfl⟩ := Outcome.map_eq_ok.mp hes
    refine ⟨first' :: es', Outcome.mapM_cons_ok.mpr ⟨first', hfirst', es', hes', rfl⟩, hlength,
      hrel.trans ?_⟩
    simp only [List.exists_mem_cons_iff]

variable {field : String} {place : Text.Position}

omit hR in
/-- The children of a clause or a value, and the node around them. -/
theorem nested_eq_bind (k : DocumentKind) (ms : List Member) (data : Value) (d : SchemaType) :
    c.nested k field ms data d = property d field >>= fun p => entry data field >>= fun v =>
      (if v.isNull then .ok [] else c.valueType p v >>= fun e => level ms v e) >>= fun ds =>
        .ok [.node k none (some field) .null [] ds] := by
  refine bind_congr fun p => bind_congr fun v => ?_
  split
  · rfl
  · cases c.valueType p v <;> rfl

/-- **A clause or a value with nodes of its own** is laid out as these are. -/
theorem Congruent.nested_follows (h : ∀ n ∈ nodes, NodeFollows R Q c value value' n)
    {kind : BlockKind} (hkind : ∀ style, kind ≠ .list style) {k : DocumentKind}
    (hleaf : k.isLeaf = false) (hk : k ≠ .document) (data : Value) (d : SchemaType) :
    Follows R Q (c.Shows [.block kind field nodes place] data d)
      (c.nested k field (c.membersBy value nodes) data d)
      (c.nested k field (c.membersBy value' nodes) data d) := by
  rw [nested_eq_bind, nested_eq_bind]
  refine .bind fun p hp => .bind fun v hv => hR.follows_inner ?_ hleaf hk (some field) []
  split
  · rename_i hnull
    exact hR.follows_nil fun x => not_shows_null hkind hv hnull
  · rename_i hnull
    rw [Bool.not_eq_true] at hnull
    refine .bind fun e he => (hR.level_of_nodes h v e).congr fun x => ?_
    exact shows_nested_iff hkind hp hv hnull he

omit hR in
/-- The items of a list, and the node around them. -/
theorem list_eq_bind (style : ListStyle) (ms : List Member) (data : Value) (d : SchemaType) :
    c.list style field ms data d = property d field >>= fun p => entry data field >>= fun v =>
      (if v.isSet then Outcome.ofOption v.members? else .ok []) >>= fun vs =>
        vs.zipIdx.mapM (fun e => c.item p (if e.2 = 0 then (style.leads c.settings).1
          else (style.leads c.settings).2) ms e.1) >>= fun ds =>
            .ok [.node .list none (some field) .null [("list_type", .text style.tag),
              ("separator", .text (style.leads c.settings).2)] ds] := by
  refine bind_congr fun p => bind_congr fun v => ?_
  cases style.leads c.settings
  dsimp only
  split <;> rfl

/-- **A list** is laid out as its nodes are. -/
theorem Congruent.list_follows (h : ∀ n ∈ nodes, NodeFollows R Q c value value' n)
    {style : ListStyle} (data : Value) (d : SchemaType) :
    Follows R Q (c.Shows [.block (.list style) field nodes place] data d)
      (c.list style field (c.membersBy value nodes) data d)
      (c.list style field (c.membersBy value' nodes) data d) := by
  rw [list_eq_bind, list_eq_bind]
  refine .bind fun p hp => .bind fun v hv => .bind fun vs hvs =>
    hR.follows_inner ?_ rfl (by simp) (some field) _
  have hitem : ∀ e ∈ vs.zipIdx, Follows R Q _ _ _ := fun e _ => hR.follows_item h p
    (if e.2 = 0 then (style.leads c.settings).1 else (style.leads c.settings).2) e.1
  refine (hR.follows_items hitem).congr fun x => ?_
  have hmem : (∃ e ∈ vs.zipIdx, ∃ type, c.valueType p e.1 = .ok type ∧ c.Shows nodes e.1 type x) ↔
      ∃ w ∈ vs, ∃ type, c.valueType p w = .ok type ∧ c.Shows nodes w type x := by
    conv_rhs => rw [← List.zipIdx_map_fst 0 vs]
    simp only [List.mem_map, exists_exists_and_eq_and]
  rw [shows_list_iff hp hv, hmem]
  split at hvs
  · rename_i hset
    cases hmembers : v.members? with
    | none =>
      rw [hmembers] at hvs
      cases hvs
    | some ws =>
      rw [hmembers] at hvs
      cases hvs
      simp [hset]
  · rename_i hset
    cases hvs
    simp [hset]

omit hR

/-- Single values are laid out in one way as they are in the other. -/
def ValuesFollow (R : List Document → List Document → Prop) (Q : Shown → Prop)
    (value value' : String → Option String → Layout) : Prop :=
  ∀ field format data d,
    Follows R Q (Binds data d field format) (value field format data d) (value' field format data d)

mutual

/-- **Every node** is laid out in one way as it is in the other. -/
theorem Congruent.node_follows (hR : Congruent R) (hvalue : ValuesFollow R Q value value') :
    ∀ n, NodeFollows R Q c value value' n
  | .text body last place => hR.text_follows body last place
  | .binding field format _ => fun data d =>
    (hvalue field format data d).congr fun _ => shows_binding_iff
  | .formatted field format _ => fun data d =>
    (hvalue field (some format) data d).congr fun _ => shows_formatted_iff
  | .shown _ _ _ | .choice _ _ _ _ => fun _ _ => .bind fun _ _ => .bind fun _ _ =>
    hR.follows_leaf (fun _ => not_shows_of_plain (by simp) (by simp) (by simp)) rfl (by simp) _ _ _ _
  | .block .clause _ inner _ | .block .within _ inner _ =>
    hR.nested_follows (hR.nodes_follow hvalue inner) (by simp) rfl (by simp)
  | .block (.list _) _ inner _ => hR.list_follows (hR.nodes_follow hvalue inner)
  | .expression _ _ => fun _ _ =>
    hR.follows_leaf (fun _ => not_shows_of_plain (by simp) (by simp) (by simp)) rfl (by simp) _ _ _ _
  | .foreign _ _ _ _ => fun _ _ => .bind fun _ _ => .bind fun _ _ => follows_error _

theorem Congruent.nodes_follow (hR : Congruent R) (hvalue : ValuesFollow R Q value value') :
    ∀ nodes : List Node, ∀ n ∈ nodes, NodeFollows R Q c value value' n
  | [] => fun _ hn => nomatch hn
  | m :: ms => List.forall_mem_cons.mpr ⟨hR.node_follows hvalue m, hR.nodes_follow hvalue ms⟩

end

/-- **A whole template** is laid out in one way as it is in the other. -/
theorem Congruent.level_follows (hR : Congruent R) (hvalue : ValuesFollow R Q value value')
    (nodes : List Node) (data : Value) (d : SchemaType) :
    Follows R Q (c.Shows nodes data d) (level (c.membersBy value nodes) data d)
      (level (c.membersBy value' nodes) data d) :=
  hR.level_of_nodes (hR.nodes_follow hvalue nodes) data d

end Layouts

end Drafter

namespace Letter

/-- A model of letters: who writes, and when. -/
def model : ModelFile where
  ns := "letter"
  declarations :=
    [{ kind := .concept, name := "Letter"
       properties := [{ name := "by", type := "String" }, { name := "on", type := "DateTime" }] }]

def drafter : Drafter where
  catalog := (Catalog.system.add model.toValue).2

/-- Who writes, and when. -/
def letter : SchemaType where
  fqn := "letter.Letter"
  ns := "letter"
  name := "Letter"
  kind := .concept
  properties :=
    [{ name := "by", typeName := "String", type := "String" },
     { name := "on", typeName := "DateTime", type := "DateTime" }]

def data : Value :=
  .object [(classKey, .text letter.fqn), ("by", .text "Ann"), ("on", .text "2024-05-01T00:00:00.000Z")]

end Letter

end Covenant
