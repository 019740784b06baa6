import Covenant.Proofs.Markup.Answers

/-!
How making the rules of a template fails.

* `Suits`: a node suits the type of its level, and so do all nodes in it, at every depth;
  `Ruled.suits`: nodes that have their rules do.
* `Compiler.refused_of_not_suits`: making the rules of a template with any other node fails.
* `Compiler.emits_ruled`: a node that has its rules adds what is listed for it.
* `Compiler.grown_of_nodeRules`: the rules of nodes refer to each other and to what is known.
* `Compiler.compile_cases`: the rules of a template are made and are complete, or the fault is
  a misfit, or one of the types, or a reference to a type that leads back to itself.
-/

namespace Covenant.Markup

/-! ### Suitable nodes -/

/-- **Nodes that suit the type of their level**, with all nodes in them: they are of a kind
that templates have, and every field is declared; truth values decide between texts that
differ; formats can be read and belong to the property's values; and blocks lay out values of
a declared type that is neither an enumeration nor abstract, lists those of an array. A block
need not have anything to say, as it is with `Fits`. -/
inductive Suits (c : Catalog) : SchemaType → Node → Prop where
  | text {d : SchemaType} {body : String} {last : Bool} {place : Text.Position} :
      Suits c d (.text body last place)
  | expression {d : SchemaType} {body : String} {place : Text.Position} :
      Suits c d (.expression body place)
  | plain {d : SchemaType} {field : String} {place : Text.Position} {p : Property}
      (hp : d.property? field = some p) : Suits c d (.binding field none place)
  | binding {d : SchemaType} {field format : String} {place : Text.Position} {p : Property}
      (hp : d.property? field = some p) (hformat : Formats p format) :
      Suits c d (.binding field (some format) place)
  | formatted {d : SchemaType} {field format : String} {place : Text.Position} {p : Property}
      (hp : d.property? field = some p) (hformat : Formats p format) :
      Suits c d (.formatted field format place)
  | shown {d : SchemaType} {field whenTrue : String} {place : Text.Position} {p : Property}
      (hp : d.property? field = some p) (hboolean : p.type = "Boolean") (harray : p.array = false)
      (htext : whenTrue ≠ "") : Suits c d (.shown field whenTrue place)
  | choice {d : SchemaType} {field whenTrue whenFalse : String} {place : Text.Position}
      {p : Property} (hp : d.property? field = some p) (hboolean : p.type = "Boolean")
      (harray : p.array = false) (htexts : whenTrue ≠ whenFalse) :
      Suits c d (.choice field whenTrue whenFalse place)
  | block {d e : SchemaType} {kind : BlockKind} {field : String} {nested : List Node}
      {place : Text.Position} {p : Property} (hp : d.property? field = some p)
      (he : LaidOut c p e) (harray : ∀ style, kind = .list style → p.array = true)
      (hnested : ∀ n ∈ nested, Suits c e n) : Suits c d (.block kind field nested place)

section

variable {c : Compiler} {set : RuleSet} {d : SchemaType} {stem : String} {nodes led : List Node}

theorem formats_of_target {p : Property} {format target : String}
    (h : Target p (some format) target) : Formats p format :=
  have ⟨hrelationship, k, r, hk, hr, _⟩ := h
  ⟨hrelationship, k, hk, r, hr⟩

/-- **A node that has its rules** suits the type of its level. The induction goes through the
levels of blocks, one of the two levels of a list. -/
theorem Ruled.suits {name : String} {n : Node} (h : Ruled c set d name n) :
    Suits c.catalog d n := by
  induction h with
  | text => exact .text
  | expression => exact .expression
  | @binding d _ field _ format _ p hp htarget =>
    cases format with
    | none => exact .plain hp
    | some format => exact .binding hp (formats_of_target htarget)
  | formatted hp htarget => exact .formatted hp (formats_of_target htarget)
  | shown hp hboolean harray htext => exact .shown hp hboolean harray htext
  | choice hp hboolean harray htexts => exact .choice hp hboolean harray htexts
  | nested hkind hp he _ _ _ ih =>
    exact .block hp he (fun style hstyle => absurd hstyle (hkind style))
      (forall_of_numbered (fun _ _ _ => .text) ih)
  | list hp harray he _ hfirst _ _ _ _ _ ih _ =>
    exact .block hp he (fun _ _ => harray)
      (forall_of_lead (fun _ _ _ => .text) hfirst (forall_of_numbered (fun _ _ _ => .text) ih))

end

/-! ### Whole templates -/

namespace Compiler

variable {c : Compiler} {d : SchemaType}

/-- The nodes of a template that has its rules suit its type. -/
theorem suits_of_nodeRules (hc : c.catalog.Built) (hd : c.catalog.types.find? d.fqn = some d)
    {template : List Node} {issued : Nat} {own : RuleSet}
    (h : (c.nodeRules template d issued).1 = .ok own) : ∀ n ∈ template, Suits c.catalog d n :=
  have hruled := (ruled_of_nodeRules hc hd h).2 own (.refl own)
  forall_of_numbered (fun _ _ _ => .text) fun m hm => (hruled.nodes m hm).suits

/-- **Soundness of making rules.** If the rules of a template are made, then every node of it
suits the type of its level, at every depth. So one node that does not, wherever it is, makes
it fail: for a misfit, but where there is a node of a foreign kind whose place is asked for and
cannot be told, perhaps for this reason. -/
theorem refused_of_not_suits (hc : c.catalog.Built) (hd : c.catalog.types.find? d.fqn = some d)
    (template : List Node) (issued : Nat) :
    (∀ set, (c.compile template d issued).1 = .ok set → ∀ n ∈ template, Suits c.catalog d n) ∧
    ((∃ n ∈ template, ¬ Suits c.catalog d n) → ∃ f, (c.compile template d issued).1 = .error f ∧
      (f.IsMisfit ∨ f.cause = .undefined ∧ Stray c.settings template)) := by
  constructor
  · intro set h
    obtain ⟨own, hown, _⟩ :
        ∃ own, (c.nodeRules template d issued).1 = .ok own ∧ _ := Outcome.bind_eq_ok.mp h
    exact suits_of_nodeRules hc hd hown
  · rintro ⟨n, hn, hsuits⟩
    have hanswers := answers_nodeRules hc.sound.types ⟨_, Table.mem_of_find hd, rfl⟩ template issued
    cases hown : (c.nodeRules template d issued).1 with
    | ok own => exact absurd (suits_of_nodeRules hc hd hown n hn) hsuits
    | error f =>
      rw [hown] at hanswers
      refine ⟨f, ?_, hanswers⟩
      change (c.nodeRules template d issued).1.bind _ = _
      rw [hown]
      rfl

end Compiler

namespace Shop

open Covenant.Shop

/-- A clause of an item that binds what its type does not declare. -/
def missingNodes : List Node :=
  [.text "An item " false ⟨1, 1⟩,
    .block .clause "part" [.binding "missing" none ⟨1, 28⟩] ⟨1, 9⟩]

/-- A field that is missing from a nested type is found out. -/
theorem refused_missing : ∃ f, (compiler.compile missingNodes item 0).1 = .error f ∧ f.IsMisfit := by
  have hmissing : ∃ n ∈ missingNodes, ¬ Suits catalog item n := by
    refine ⟨_, .tail _ (.head _), fun h => ?_⟩
    cases h with
    | block hp he _ hnested =>
      cases hp
      cases find_types.1.symm.trans he.found
      cases hnested _ (.head _) with
      | plain hp => cases hp
  have hkinds : ∀ n, Occurs n missingNodes →
      n ∈ missingNodes ∨ n = .binding "missing" none ⟨1, 28⟩ := by
    rintro n (h | ⟨h, h' | ⟨h', _⟩⟩)
    · exact .inl h
    all_goals
      simp only [missingNodes, List.mem_cons, reduceCtorEq, List.not_mem_nil, or_false, false_or,
        Node.block.injEq] at h
      obtain ⟨_, _, rfl, _⟩ := h
    · exact .inr (List.mem_singleton.mp h')
    · cases List.mem_singleton.mp h'
  have hstray : ¬ Stray compiler.settings missingNodes := by
    rintro (h | h)
    · rcases hkinds _ h with h | h
      · simp [missingNodes] at h
      · cases h
    · rcases hkinds _ h with h | h
      · simp [missingNodes] at h
      · cases h
  obtain ⟨f, hf, hmisfit | ⟨_, h⟩⟩ :=
    (Compiler.refused_of_not_suits (c := compiler) built find_types.2.1 missingNodes 0).2 hmissing
  · exact ⟨f, hf, hmisfit⟩
  · exact absurd h hstray

/-- A list of items each of which begins with a heading, which templates do not have. -/
def headingNodes : List Node :=
  [.block (.list .bullets) "items" [.foreign "Heading" none none none] ⟨1, 1⟩]

/-- A heading where the text in front of items goes is found out, but not as a misfit. -/
theorem not_misfit_heading : (∃ n ∈ headingNodes, ¬ Suits catalog order n) ∧
    ∃ f, (compiler.compile headingNodes order 0).1 = .error f ∧ f.cause = .undefined := by
  constructor
  · refine ⟨_, .head _, fun h => ?_⟩
    cases h with
    | block _ _ _ hnested => cases hnested _ (.head _)
  · have htest : (match (compiler.compile headingNodes order 0).1 with
        | .error ⟨.undefined, _, _⟩ => true
        | _ => false) = true := by
      decide +kernel
    split at htest
    · exact ⟨_, ‹_›, rfl⟩
    · cases htest

end Shop

end Covenant.Markup

namespace Covenant.Markup.Compiler

variable {c : Compiler} {d : SchemaType} {known : String → Prop}

/-! ### The rules of the nodes -/

/-- A node that has its rules is of a kind that templates have, so its place is known. -/
theorem place_of_ruled {set : RuleSet} {name : String} {n : Node} (h : Ruled c set d name n) :
    ∃ place, n.place? = some place := by
  cases h <;> exact ⟨_, rfl⟩

/-- **A node that has its rules** adds what is listed for it, or fails since one of its own names
is taken. Unlike a node that fits, it may be a list with nothing between the texts in front of its
items. -/
theorem emits_ruled {covers : SchemaType → Prop} (hknown : Knows c.catalog covers known)
    {set : RuleSet} {own : String} {n : Node} (h : Ruled c set d own n) (hd : covers d)
    (stem name : String) :
    Emits known (fun _ => True) (c.ruleOf n ⟨d, stem⟩ name) (c.emissionsOf n d)
      (RuleFor known name) := by
  have htexts : ∀ {e} body last place stem name,
      Emits known (fun _ => True) (c.ruleOf (.text body last place) ⟨e, stem⟩ name)
        (c.emissionsOf (.text body last place) e) (RuleFor known name) :=
    fun body _ _ _ name => emits_textRule body name
  induction h generalizing stem name with
  | text => exact htexts _ _ _ stem name
  | expression => exact emits_ruleOf hknown .expression hd stem name
  | @binding d _ field _ format _ p hp htarget =>
    cases format with
    | none => exact emits_ruleOf hknown (.plain hp) hd stem name
    | some format =>
      exact emits_ruleOf hknown (.binding hp (formats_of_target htarget)) hd stem name
  | formatted hp htarget =>
    exact emits_ruleOf hknown (.formatted hp (formats_of_target htarget)) hd stem name
  | shown hp hboolean harray htext =>
    exact emits_ruleOf hknown (.shown hp hboolean harray htext) hd stem name
  | choice hp hboolean harray htexts =>
    exact emits_ruleOf hknown (.choice hp hboolean harray htexts) hd stem name
  | nested hkind hp he _ hlevel hnodes ih =>
    have hcovers := hknown.block hd (mem_of_property hp) he.primitive he.relationship he.found
    exact emits_block hp he.primitive he.relationship he.found he.enum he.abstract
      (fun style hstyle => absurd hstyle (hkind style)) (fun _ => exists_loud hlevel.filled)
      (forall_of_numbered (fun _ _ place => ⟨place, rfl⟩) fun m hm => place_of_ruled (hnodes m hm))
      (forall_of_numbered htexts fun m hm => ih m hm hcovers) stem name
  | @list d e _ field style nodes first later _ p hp harray he _ hfirst _ hfirstLevel _ hfirsts _ ih _ =>
    have hcovers := hknown.block hd (mem_of_property hp) he.primitive he.relationship he.found
    -- without a text in front of the first item, its level is that of the list
    have hfilled : (∀ s, BlockKind.list style = .list s → (s.leads c.settings).1 = "") →
        ∃ n ∈ nodes, n.silent = false := by
      intro hleads
      rw [hleads style rfl] at hfirst
      cases hfirst
      exact exists_loud hfirstLevel.filled
    exact emits_block hp he.primitive he.relationship he.found he.enum he.abstract
      (fun _ _ => harray) hfilled
      (forall_of_lead (fun _ _ place => ⟨place, rfl⟩) hfirst
        (forall_of_numbered (fun _ _ place => ⟨place, rfl⟩) fun m hm => place_of_ruled (hfirsts m hm)))
      (forall_of_lead htexts hfirst (forall_of_numbered htexts fun m hm => ih m hm hcovers))
      stem name

/-- **The rules of the nodes of a template**, if they are made, are those that are listed, and
refer to each other and to what is known. -/
theorem grown_of_nodeRules (hc : c.catalog.Built) (hd : c.catalog.types.find? d.fqn = some d)
    {covers : SchemaType → Prop} (hknown : Knows c.catalog covers known) (hcovers : covers d)
    {template : List Node} {issued : Nat} {own : RuleSet}
    (h : (c.nodeRules template d issued).1 = .ok own) :
    Grown known (c.emissions template d) {} own ∧ topStem ∈ own.names := by
  have hruled := (ruled_of_nodeRules hc hd h).2 own (.refl own)
  have hnodes : ∀ n ∈ template, ∀ stem name, Emits known (fun _ => True)
      (c.ruleOf n ⟨d, stem⟩ name) (c.emissionsOf n d) (RuleFor known name) :=
    forall_of_numbered (fun body _ _ _ name => emits_textRule body name) fun m hm =>
      emits_ruled hknown (hruled.nodes m hm) hcovers
  obtain ⟨n, hn, hsilent⟩ := exists_loud hruled.level.filled
  obtain ⟨m, hm, rfl⟩ := mem_membersOf.mpr hn
  have hlevel := @emits_addLevel c d topStem known _ _ (agrees_members hnodes) ⟨m, hm, hsilent⟩
    { issued } trivial
  rw [nodeRules_eq] at h
  split at h
  · rename_i s hexec
    cases h
    rw [hexec] at hlevel
    exact hlevel
  · cases h

/-! ### The rules of the types -/

/-- Rules of types can be added unless one of them has the name of a rule of the template. -/
theorem misfit_of_addTypes {set : RuleSet} {rs : List Rule} {f : Fault}
    (h : c.addTypes set rs = .error f) : f.IsMisfit := by
  induction rs generalizing set with
  | nil => cases h
  | cons r rs ih =>
    unfold addTypes at h
    split at h
    · exact ih h
    · split at h
      · cases h
        exact .inl ⟨_, rfl⟩
      · exact ih h

/-- **The rules of a template and of its types** go together and are complete, or one of the
template has the name of one of a type, or one refers to what is missing. -/
theorem withTypes_cases {own types : RuleSet} {missing : String → Prop}
    (hnames : types.names.Nodup) (htop : topStem ∈ own.names)
    (hown : ∀ r ∈ own.rules, r.Closed fun x => x ∈ own.names ∨ x ∈ types.names ∨ missing x)
    (htypes : ∀ r ∈ types.rules, r.Closed fun x => x ∈ types.names ∨ missing x) :
    (∃ set, c.withTypes own types = .ok set ∧ set.check = .ok ()) ∨
    ∃ f, c.withTypes own types = .error f ∧
      (f.IsMisfit ∨ ∃ r x, f.cause = .grammar (.danglingReference r x) ∧ missing x) := by
  cases hadd : c.addTypes { own with start := some topStem } types.rules with
  | error f =>
    exact .inr ⟨f, Outcome.bind_eq_error.mpr (.inl hadd), .inl (misfit_of_addTypes hadd)⟩
  | ok joined =>
    obtain ⟨_, rfl⟩ := (addTypes_eq_ok_iff hnames).mp hadd
    rcases fault_joined htop hown htypes with hfault | ⟨r, x, hfault, hmissing⟩
    · have hcheck := RuleSet.check_eq_ok_iff.mpr hfault
      exact .inl ⟨_, Outcome.bind_eq_ok.mpr ⟨_, hadd, Outcome.bind_eq_ok.mpr ⟨(), hcheck, rfl⟩⟩,
        hcheck⟩
    · refine .inr ⟨{ cause := .grammar (.danglingReference r x) }, ?_, .inr ⟨r, x, rfl, hmissing⟩⟩
      refine Outcome.bind_eq_error.mpr (.inr ⟨_, hadd, Outcome.bind_eq_error.mpr (.inl ?_)⟩)
      exact RuleSet.check_eq_fail hfault

/-! ### Whole templates -/

/-- **How making the rules of a template ends**, where the default format of dates can be read:
the rules are made and are complete; or there is a misfit, or a fault of the types; or some rule
refers to the type of the template, which has no rule of its own. The last is possible only if the
type leads back to itself. -/
theorem compile_cases (hc : c.catalog.Built) (hd : c.catalog.types.find? d.fqn = some d)
    (hdate : ∃ w, DateTime.rule c.settings.dateFormat = .ok w) {template : List Node}
    (htemplate : ∀ kind field line column, ¬ Occurs (.foreign kind field line column) template)
    (issued : Nat) :
    (∃ set, (c.compile template d issued).1 = .ok set ∧ set.check = .ok ()) ∨
    ∃ f, (c.compile template d issued).1 = .error f ∧ (f.IsMisfit ∨ (∃ x, f.cause = .model x) ∨
      ∃ r, f.cause = .grammar (.danglingReference r d.fqn) ∧
        Relation.TransGen c.catalog.Leads d.fqn d.fqn) := by
  obtain ⟨w, hw⟩ := hdate
  have hstray : ¬ Stray c.settings template := by
    rintro (h | ⟨h, _, _⟩)
    · exact htemplate _ _ _ _ h
    · exact htemplate _ _ _ _ (h.of_block (.here (List.mem_cons_self)))
  have hanswers := answers_nodeRules hc.sound.types ⟨_, Table.mem_of_find hd, rfl⟩ template issued
  have hcompile : (c.compile template d issued).1 =
      (c.nodeRules template d issued).1.bind fun own =>
        (c.catalog.rules c.settings d.fqn).bind fun types => c.withTypes own types := rfl
  rw [hcompile]
  cases hown : (c.nodeRules template d issued).1 with
  | error f =>
    rw [hown] at hanswers
    rcases hanswers with hmisfit | ⟨_, h⟩
    · exact .inr ⟨f, rfl, .inl hmisfit⟩
    · exact absurd h hstray
  | ok own =>
    simp only [Except.bind]
    rcases Catalog.rules_cases hc.sound.types hw (Table.mem_names_of_find hd) with
      ⟨types, htypes, hwell, hnames, hclosed⟩ | ⟨e, hfail, _⟩
    · rw [htypes]
      obtain ⟨hgrown, htop⟩ := grown_of_nodeRules hc hd
        (knows_referable hc.sound.types d.fqn c.settings) ⟨hd, .refl⟩ hown
      obtain ⟨new, hnew, hall, _⟩ := hgrown.rules
      have hrules : own.rules = new := by simpa using hnew
      refine (withTypes_cases hwell.names htop (fun r hr => ?_) hclosed).imp_right ?_
      · refine (hall r (hrules ▸ hr)).1.mono fun x hx => ?_
        exact hx.imp_right fun hx => hx.imp_left (hnames x).mpr
      · rintro ⟨f, hf, hmisfit | ⟨r, x, hcause, rfl, hrecurs⟩⟩
        · exact ⟨f, hf, .inl hmisfit⟩
        · exact ⟨f, hf, .inr (.inr ⟨r, hcause, hrecurs⟩)⟩
    · rw [hfail]
      exact .inr ⟨_, rfl, .inr (.inl ⟨_, rfl⟩)⟩

end Covenant.Markup.Compiler

/-! ### Items, and links that lead to links -/

namespace Covenant.Markup.Shop

open Covenant.Shop

/-- The rules of an item are complete. -/
theorem complete_item : ∃ set, (compiler.compile itemNodes item 0).1 = .ok set ∧
    set.check = .ok () := by
  have hforeign : ∀ kind field line column,
      ¬ Occurs (.foreign kind field line column) itemNodes := by
    rintro kind field line column (h | ⟨h, h' | ⟨h', _⟩⟩)
    · simp [itemNodes] at h
    all_goals
      simp only [itemNodes, List.mem_cons, reduceCtorEq, List.not_mem_nil, or_false, false_or,
        Node.block.injEq] at h
      obtain ⟨_, _, rfl, _⟩ := h
      cases List.mem_singleton.mp h'
  obtain ⟨set, hset, _⟩ := holds_itemRules
  rcases Compiler.compile_cases (c := compiler) built find_types.2.1 ⟨_, rfl⟩ hforeign 0 with
    h | ⟨f, hf, _⟩
  · exact h
  · cases hset.symm.trans hf

end Covenant.Markup.Shop

namespace Covenant.Markup.Chain

/-- A model of links with labels, which may have a next link. -/
def model : ModelFile where
  ns := "chain"
  declarations :=
    [{ kind := .concept, name := "Link"
       properties := [{ name := "label", type := "String" },
        { name := "next", type := "Link", optional := true }] }]

def compiler : Compiler where
  catalog := (Catalog.system.add model.toValue).2
  identifier := toString

/-- Something with a label, and perhaps a next one. -/
def link : SchemaType where
  fqn := "chain.Link"
  ns := "chain"
  name := "Link"
  kind := .concept
  properties :=
    [{ name := "label", typeName := "String", type := "String" },
     { name := "next", typeName := "Link", type := "chain.Link", optional := true }]

def linkNodes : List Node :=
  [.binding "label" none ⟨1, 3⟩, .text " " false ⟨1, 10⟩, .binding "next" none ⟨1, 13⟩]

/-- The rule of the next link refers to a rule that is not there. -/
theorem dangling_link : compiler.catalog.Built ∧ compiler.catalog.types.find? link.fqn = some link ∧
    (∃ w, DateTime.rule compiler.settings.dateFormat = .ok w) ∧
    ∃ f, (compiler.compile linkNodes link 0).1 = .error f ∧
      f.cause = .grammar (.danglingReference "rule2" link.fqn) := by
  refine ⟨.add .system _ _, by decide +kernel, ⟨_, rfl⟩, ?_⟩
  have htest : (match (compiler.compile linkNodes link 0).1 with
      | .error ⟨.grammar (.danglingReference r x), _, _⟩ => r == "rule2" && x == link.fqn
      | _ => false) = true := by
    decide +kernel
  split at htest
  · rename_i heq
    refine ⟨_, heq, ?_⟩
    simp only [Bool.and_eq_true, beq_iff_eq] at htest
    rw [htest.1, htest.2]
  · cases htest

end Covenant.Markup.Chain
