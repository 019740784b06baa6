import Covenant.Proofs.Document.Places
import Covenant.Proofs.Markup.Blame
import Covenant.Proofs.Markup.Spans
import Covenant.Proofs.Markup.Unambiguous
import Covenant.Proofs.Template.History
import Covenant.Proofs.Template.Redrafting

/-!
Where reports point to in the texts that were given.

A text is brought into its normal form before it is read, and the positions that are reported are
those of the normal form. They lead into the text that was given, as many lines below as line feeds
are left out.

* `Fault.ShowsCharacter`, `Fault.ShowsField`: where a fault tells of a character or of a node, its
  position leads to the character, or to the name that the node binds.
* `Registry.failsWith_product`: so it does for every text that no grammar can be built from.
* `Instance.read_shows`: and for every text that no data can be read from.
-/

namespace Covenant

open Document Fault Markup Outcome Text Work

/-! ### What faults show -/

namespace Fault

/-- **A fault shows the character that was not expected**, if it tells of one. -/
def ShowsCharacter (text : String) (f : Fault) : Prop :=
  ∀ c expected, f.cause = .reading (.unexpectedCharacter c expected) →
    ∃ s, f.span = some s ∧ s.stop = none ∧ Shows text.toList ⟨s.line, s.column⟩ [c]

/-- **A fault shows the name that a node of a text binds**, if it is a misfit that tells a place: it
is laid to one of the nodes that the normal form of the text is read as, and covers the name of the
field of this node. -/
def ShowsField (c : Compiler) (text : String) (f : Fault) : Prop :=
  ∀ s, f.IsMisfit → f.span = some s →
    ∃ nodes n, Markup.read (Document.normalize text) (some c.settings.grammarFile)
        c.settings.joinSeparator = .ok nodes ∧ Compiler.Among nodes n ∧ f.Blames n ∧
      ∀ field, n.field? = some field → s.stop = some (s.line, s.column + field.length) ∧
        Shows text.toList ⟨s.line, s.column⟩ field.toList

theorem Unplaced.showsCharacter {f : Fault} (h : f.Unplaced) (text : String) :
    f.ShowsCharacter text :=
  fun c expected hcause => absurd hcause (h.character c expected)

theorem Unplaced.showsField {f : Fault} (h : f.Unplaced) (c : Compiler) (text : String) :
    f.ShowsField c text := by
  rintro s hmisfit hspan
  rcases h.span with hnone | ⟨x, hx⟩
  · cases hnone.symm.trans hspan
  · rcases hmisfit with ⟨y, hy⟩ | ⟨y, hy⟩
    · cases hx.symm.trans hy
    · cases hx.symm.trans hy

/-- **A text without a reading** is refused at a character that stands there, or at its end. -/
theorem showsCharacter_unreadable {text : String} {cs : List Char}
    (h : cs = normalizeChars text.toList) (furthest : Nat) (expected : List String)
    (file : Option String) :
    ((Grammar.unreadable cs furthest expected).inFile file).ShowsCharacter text := by
  intro c expected' hcause
  refine ⟨.at (Position.of cs furthest), rfl, rfl, ?_⟩
  have hc : cs[furthest]? = some c := by
    have hcause := Cause.reading.inj hcause
    split at hcause
    · cases hcause
      assumption
    · cases hcause
  refine shows_of_standsAt (.inr rfl) (List.cons_ne_nil _ _) (h ▸ ⟨furthest, rfl, ?_⟩)
  obtain ⟨hlt, rfl⟩ := List.getElem?_eq_some_iff.mp hc
  rw [List.drop_eq_getElem_cons hlt]
  exact List.prefix_append [_] _

theorem not_misfit_of_reading {f : Fault} {x : Reading} (h : f.cause = .reading x) :
    ¬ f.IsMisfit := by
  rintro (⟨y, hy⟩ | ⟨y, hy⟩)
  · cases h.symm.trans hy
  · cases h.symm.trans hy

end Fault

/-! ### Building -/

namespace Registry

variable (c : Compiler) (type : SchemaType)

/-- Markup that cannot be read. -/
theorem shows_of_readMarkup {text separator : String} {file : Option String} {f : Fault}
    (h : Markup.read (Document.normalize text) file separator = .error f) :
    f.ShowsCharacter text ∧ f.ShowsField c text := by
  rcases read_error_cases h with ⟨furthest, expected, rfl⟩ | ⟨cs, f', hcs, rfl⟩
  · refine ⟨showsCharacter_unreadable (String.toList_ofList) furthest expected file, ?_⟩
    exact fun _ hmisfit => absurd hmisfit (not_misfit_of_reading rfl)
  · have hunplaced : (f'.inFile file).Unplaced := by
      unfold readString at hcs
      split at hcs
      · cases hcs
      · cases hcs
        exact ⟨.inl rfl, fun _ _ h => nomatch h⟩
      · cases hcs
        exact ⟨.inl rfl, fun _ _ h => nomatch h⟩
    exact ⟨hunplaced.showsCharacter text, hunplaced.showsField c text⟩

/-- A misfit that is laid to a node shows the name that the node binds. -/
theorem shows_of_blames {text : String} {nodes : List Node} {f : Fault} {n : Node}
    (hread : Markup.read (Document.normalize text) (some c.settings.grammarFile)
      c.settings.joinSeparator = .ok nodes) (hn : Compiler.Among nodes n) (h : f.Blames n) :
    f.ShowsCharacter text ∧ f.ShowsField c text := by
  refine ⟨fun _ _ hcause => absurd h.misfit (not_misfit_of_reading hcause), fun s _ hspan => ?_⟩
  refine ⟨nodes, n, hread, hn, h, fun field hfield => ?_⟩
  have hoccurs : Occurs n nodes := hn.resolve_right fun hnone => nomatch hnone.symm.trans hfield
  obtain ⟨hstop, hplain, hne, hstands⟩ :=
    (exact_of_read hread hoccurs).sited.standsAt hfield (h.span.trans (congrArg _ hspan))
  rw [Document.normalize, String.toList_ofList] at hstands
  exact ⟨hstop, shows_of_standsAt (.inl hplain) hne hstands⟩

/-- **A text that no grammar can be built from** is refused by a fault that points into it. -/
theorem failsWith_product (text : String) (issued : Nat) :
    ((Change.build text).product c type issued).FailsWith
      fun f => f.ShowsCharacter text ∧ f.ShowsField c text := by
  have hunplaced : ∀ {α : Type} {o : Outcome α}, o.FailsWith Unplaced →
      o.FailsWith fun f => f.ShowsCharacter text ∧ f.ShowsField c text :=
    fun h f hf => ⟨(h f hf).showsCharacter text, (h f hf).showsField c text⟩
  have hgenerated : (generated c type (Document.normalize text) issued).FailsWith
      fun f => f.ShowsCharacter text ∧ f.ShowsField c text := by
    refine FailsWith.bind (fun f hf => shows_of_readMarkup c hf) fun nodes hread => ?_
    refine FailsWith.bind (fun f hf => ?_) fun rules _ => ?_
    · rcases Compiler.failsWith_compile nodes type issued f hf with h | ⟨n, hn, h⟩
      · exact ⟨h.showsCharacter text, h.showsField c text⟩
      · exact shows_of_blames c hread hn.among h.toBlames
    · exact (hunplaced (RuleSet.failsWith_write rules)).bind fun _ _ => failsWith_ok _
  unfold Change.product
  simp only [write_read]
  refine hgenerated.bind fun x _ => ?_
  exact (hunplaced (failsWith_readSource _ _)).bind fun _ _ => failsWith_ok _

/-- **Building a grammar** fails with faults that point into the text. -/
theorem build_shows (text : String) (r : Registry) : (Registry.build c type text).Ends r
    (fun _ _ => True) fun f _ => f.ShowsCharacter text ∧ f.ShowsField c text := by
  refine ⟨fun _ => trivial, fun {session f _ _} hrun => ?_⟩
  obtain ⟨s, hbuild⟩ := @exists_run_build c type text r session
  rw [hrun] at hbuild
  cases hproduct : (Change.build text).product c type session.issued with
  | ok p =>
    rw [hproduct] at hbuild
    cases hbuild
  | error f' =>
    rw [hproduct] at hbuild
    cases hbuild
    exact failsWith_product c type text _ _ hproduct

end Registry

/-! ### Reading -/

namespace Template

theorem failsWith_type (t : Template) : t.type.FailsWith Unplaced :=
  Catalog.failsWith_templateType _ _

theorem failsWith_checkData (t : Template) (data : Value) : (t.checkData data).FailsWith Unplaced :=
  (failsWith_type t).bind fun _ _ => Catalog.failsWith_checkData _ _ _

/-- Building the grammar of a template fails with faults that point into its markup. -/
theorem ensureGrammar_shows (t : Template) : ensureGrammar.Ends t (fun _ _ => True) fun f _ =>
    f.Unplaced ∨ t.registry.isBuilt = false ∧
      ∃ markup, t.markup = some markup ∧ f.ShowsCharacter markup := by
  unfold ensureGrammar
  refine Ends.of_state ?_
  cases hbuilt : t.registry.isBuilt with
  | true => exact ends_pure trivial
  | false =>
    cases hmarkup : t.markup with
    | none => exact ends_throw (.inl ⟨.inl rfl, fun _ _ h => nomatch h⟩)
    | some markup =>
      have hor : none.or t.markup = some markup := hmarkup
      have hbuild : (onRegistry fun type => Registry.build t.compiler type markup).Ends t
          (fun _ _ => True) fun f _ => f.Unplaced ∨ f.ShowsCharacter markup :=
        onRegistry_ends (fun type _ => (Registry.build_shows _ type markup _).mono
          (fun _ _ _ => trivial) fun _ _ h => .inr h.1) fun f hf => .inl (failsWith_type t f hf)
      refine Ends.of_state ?_
      rw [hor]
      exact (hbuild.within _).bind (fun _ _ _ => ends_change trivial)
        fun _ _ h => h.imp_right fun h => ⟨rfl, markup, rfl, h⟩

end Template

/-- **A text that a grammar cannot read** is refused by a fault that points into it. -/
theorem Grammar.showsCharacter_of_read {g : Grammar} {text : String} {ctx : ReadingContext}
    {file : Option String} {f : Fault} (h : g.read (Document.normalize text) ctx file = .error f) :
    f.ShowsCharacter text := by
  rcases bind_eq_error.mp h with h | ⟨d, -, h⟩
  · unfold parse at h
    split at h
    · cases h
    · cases h
      exact fun _ _ hcause => nomatch hcause
    · cases h
      exact showsCharacter_unreadable String.toList_ofList _ _ _
  · exact (Derivation.failsWith_evaluate _ _ _ f h).showsCharacter text

namespace Instance

/-- Reading a document by the grammar in force fails with faults that point into the text. -/
theorem extract_shows (text : String) (ctx : ReadingContext) (file : Option String) (i : Instance) :
    (onTemplate (Template.onRegistry fun type =>
      Registry.extract type (Document.read text) ctx file)).Ends i (fun _ _ => True)
        fun f _ => f.ShowsCharacter text := by
  refine onTemplate_ends (Template.onRegistry_ends (fun type _ => ?_) fun f hf => ?_)
  · unfold Registry.extract
    rw [write_read]
    refine (Registry.read_ends _ ctx file _).bind
      (fun _ _ _ => Ends.of_note (ends_pure trivial)) ?_
    rintro f _ ⟨-, hf⟩
    rcases bind_eq_error.mp hf with hf | ⟨g, -, hf⟩
    · unfold Registry.current at hf
      split at hf
      · cases hf
      · cases hf
        exact fun _ _ hcause => nomatch hcause
    · exact Grammar.showsCharacter_of_read hf
  · exact (Template.failsWith_type _ f hf).showsCharacter text

/-- Setting data tells no place. -/
theorem setData_unplaced (data : Value) (i : Instance) :
    (setData data).Ends i (fun _ _ => True) fun f _ => f.Unplaced := by
  have hrest : (do
      Work.note .debug "templates" ("Setting data: " ++ Json.spaced data)
      Work.ofOutcome (i.template.checkData data)
      Work.change fun i => { i with data := some data } : Work Instance Unit).Ends i
      (fun _ _ => True) fun f _ => f.Unplaced :=
    Ends.of_note (Ends.of_ofOutcome (fun _ _ => ends_change trivial)
      (Template.failsWith_checkData _ _))
  unfold setData
  refine Ends.of_state (Ends.of_ofOutcome (fun type _ => ?_) (Template.failsWith_type _))
  cases isOf type data with
  | true => exact hrest
  | false => exact ends_throw ⟨.inl rfl, fun _ _ h => nomatch h⟩

/-- **Reading data** fails with faults that point into the text, or into the markup if there was no
grammar. -/
theorem read_shows (text : String) (clock : Option Int) (file : Option String)
    (zones : String → Option Zone) (i : Instance) :
    (Instance.read text clock file zones).Ends i (fun _ _ => True) fun f _ =>
      f.ShowsCharacter text ∨ i.template.registry.isBuilt = false ∧
        ∃ markup, i.template.markup = some markup ∧ f.ShowsCharacter markup := by
  have hensure : (onTemplate Template.ensureGrammar).Ends i (fun _ _ => True) fun f _ =>
      f.ShowsCharacter text ∨ i.template.registry.isBuilt = false ∧
        ∃ markup, i.template.markup = some markup ∧ f.ShowsCharacter markup :=
    onTemplate_ends ((Template.ensureGrammar_shows i.template).mono (fun _ _ h => h)
      fun _ _ h => h.imp_left fun h => h.showsCharacter text)
  unfold Instance.read
  refine Ends.of_state (Ends.within (hensure.bind (fun _ i₁ _ => ?_) fun _ _ h => h) _)
  refine (extract_shows text _ file i₁).bind (fun data i₂ _ => ?_) fun _ _ h => .inl h
  exact (setData_unplaced data i₂).bind (fun _ _ _ => ends_pure trivial)
    fun _ _ h => .inl (h.showsCharacter text)

/-- **Reports point into the texts that were given.** If no grammar can be built from a text, a
character that was not expected is the one that the reported position leads to, and so is the name
of the field of the node that a misfit is laid to. If no data can be read from a text, a character
that was not expected is the one that the reported position leads to in the text, or in the markup
if the grammar was still to be built. Positions are those of the normal form: they are off by the
line feeds that it leaves out, and right where it leaves out none. -/
theorem reports_point_into_text (c : Compiler) (type : SchemaType) (text : String) (r : Registry)
    (clock : Option Int) (file : Option String) (zones : String → Option Zone) (i : Instance) :
    (Registry.build c type text).Ends r (fun _ _ => True)
        (fun f _ => f.ShowsCharacter text ∧ f.ShowsField c text) ∧
      (Instance.read text clock file zones).Ends i (fun _ _ => True) fun f _ =>
        f.ShowsCharacter text ∨ i.template.registry.isBuilt = false ∧
          ∃ markup, i.template.markup = some markup ∧ f.ShowsCharacter markup :=
  ⟨Registry.build_shows c type text r, read_shows text clock file zones i⟩

end Instance

/-! ### A slip -/

/-- A binding of an undeclared property is refused at its place. -/
theorem Markup.Compiler.nodeRules_undeclared (c : Compiler) {d : SchemaType} {field : String}
    (h : d.property? field = none) (p : Position) (issued : Nat) :
    (c.nodeRules [.binding field none p] d issued).1 = .error
      { cause := .structural (.undeclaredProperty field d.fqn), file := some c.file
        span := some ⟨p.line, p.column, some (p.line, p.column + field.length)⟩ } := by
  let n := Node.binding field none p
  let f : Fault :=
    { cause := .structural (.undeclaredProperty field d.fqn), file := some c.file
      span := some ⟨p.line, p.column, some (p.line, p.column + field.length)⟩ }
  have hrule : ∀ name s, (c.ruleOf n ⟨d, topStem⟩ name).exec s = (.error f, s) := by
    intro name s
    rw [show c.ruleOf n ⟨d, topStem⟩ name = c.bindingRule n field none ⟨d, topStem⟩ name by
      simp only [n, Compiler.ruleOf]]
    unfold Compiler.bindingRule Compiler.property
    rw [Compile.exec_bind, h]
    rfl
  have hmember : ∀ s, (c.addMember ⟨d, topStem⟩ ⟨n, c.ruleOf n⟩ 0).exec s = (.error f, s) := by
    intro s
    change (c.ruleOf n ⟨d, topStem⟩ _ >>= _ : Compile _).exec s = _
    rw [Compile.exec_bind, hrule]
  have hlevel : ∀ s, (c.addLevel ⟨d, topStem⟩ (c.membersOf [n])).exec s = (.error f, s) := by
    intro s
    unfold Compiler.addLevel
    rw [Compile.exec_bind, Compiler.membersOf, List.zipIdx_cons, List.filterMapM_cons,
      Compile.exec_bind, hmember]
  rw [Compiler.nodeRules_eq, hlevel]

namespace Note

/-- Markup that binds an undeclared property behind two line feeds. -/
def slip : String :=
  "\n\n\x7b\x7bmissing\x7d\x7d"

theorem evaluated_slip : Document.normalize slip = "\x7b\x7bmissing\x7d\x7d" ∧
    type.fqn = "note.Note" ∧ type.property? "missing" = none ∧
    (Markup.cfg.exhaust (Document.normalize slip).toList 20 (.goal .level) 0
      (Document.normalize slip).toList.length).any (fun ts => match ts with
        | [t] => (levelOf (Position.of (Document.normalize slip).toList)
            template.compiler.settings.joinSeparator t).toOption.any fun level => match level with
              | [.binding field none p] => field == "missing" && decide (p = ⟨1, 3⟩)
              | _ => false
        | _ => false) = true := by
  decide +kernel

theorem read_slip (file : Option String) :
    Markup.read (Document.normalize slip) file template.compiler.settings.joinSeparator =
      .ok [.binding "missing" none ⟨1, 3⟩] := by
  have htree := evaluated_slip.2.2.2
  cases hts : Markup.cfg.exhaust (Document.normalize slip).toList 20 (.goal .level) 0
      (Document.normalize slip).toList.length with
  | none =>
    rw [hts] at htree
    cases htree
  | some ts =>
    rw [hts, Option.any_some] at htree
    split at htree
    · obtain ⟨level, hlevel, htest⟩ := exists_of_any htree
      rw [read_of_exhaust hts hlevel]
      split at htest
      · simp only [Bool.and_eq_true, beq_iff_eq, decide_eq_true_eq] at htest
        obtain ⟨rfl, rfl⟩ := htest
        rfl
      · cases htest
    · cases htree

/-- **The slip is reported two lines too high**, where its name does not stand. -/
theorem build_slip : ∃ f s, (Registry.build template.compiler type slip).run {} {} =
      (.error f, {}, s) ∧ f.cause = .structural (.undeclaredProperty "missing" "note.Note") ∧
    f.span = some ⟨1, 3, some (1, 10)⟩ ∧ ¬ StandsAt slip.toList ⟨1, 3⟩ "missing".toList ∧
    StandsAt slip.toList ⟨3, 3⟩ "missing".toList := by
  let f : Fault :=
    { cause := .structural (.undeclaredProperty "missing" type.fqn)
      file := some template.compiler.file, span := some ⟨1, 3, some (1, 10)⟩ }
  have hgenerated : ∀ issued, Registry.generated template.compiler type (Document.normalize slip)
      issued = .error f := by
    intro issued
    have hrules := template.compiler.nodeRules_undeclared evaluated_slip.2.2.1 ⟨1, 3⟩ issued
    unfold Registry.generated Compiler.compile
    rw [read_slip]
    simp only [bind, Except.bind, hrules]
    rfl
  obtain ⟨s, hbuild⟩ := @Registry.exists_run_build template.compiler type slip {} {}
  simp only [Registry.Change.product, write_read, hgenerated] at hbuild
  refine ⟨f, s, hbuild, ?_, rfl, ?_, ⟨4, by decide, by decide⟩⟩
  · rw [← evaluated_slip.2.1]
  · rintro ⟨i, hposition, -⟩
    have hall : ∀ j < 14, Position.of slip.toList j ≠ ⟨1, 3⟩ := by decide
    rw [Position.of, List.take_eq_take_min] at hposition
    exact hall _ (Nat.lt_succ_of_le (Nat.min_le_right _ _)) hposition

end Note

end Covenant
