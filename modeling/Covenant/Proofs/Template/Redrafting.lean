import Covenant.Proofs.Markup.Redrafting
import Covenant.Proofs.Template.Packages
import Covenant.Proofs.Template.Readings

/-!
Drafting what an instance has read.

* `Registry.document_of_read`: what the grammar of markup reads is laid out by the nodes of the markup.
* `Instance.readData_ends`: what an instance has read is its data, which has been accepted.
* `Instance.run_draft`: data that can be laid out is drafted in every format.
* `Instance.draft_of_read`: so an instance drafts what it has read.
-/

namespace Covenant

open Work

/-- The type of a kind of templates is one of the catalog. -/
theorem Catalog.find_templateType {c : Catalog} (hc : c.Built) {kind : TemplateKind}
    {d : SchemaType} (h : c.templateType kind = .ok d) : c.types.find? d.fqn = some d := by
  obtain ⟨ds, hds, h⟩ := Outcome.bind_eq_ok.mp h
  obtain rfl : ds = [d] := by
    match ds, h with
    | [], h => cases h
    | [_], h =>
      cases h
      rfl
    | _ :: _ :: _, h => cases h
  obtain ⟨b, hb, -⟩ := Outcome.bind_eq_ok.mp hds
  have hbase : kind.baseType ∈ c.types.names := by
    unfold Catalog.get at hb
    split at hb
    · exact Table.mem_names_of_find ‹_›
    · cases hb
  rw [Catalog.concreteSubtypes_eq hc.sound.types hbase] at hds
  have hd : d ∈ c.subtypes kind.baseType := Except.ok.inj hds ▸ List.mem_singleton_self d
  obtain ⟨e, he, rfl⟩ := List.mem_map.mp (List.mem_filter.mp hd).1
  rw [hc.sound.types.fqn e he]
  exact (Table.find_eq_some_iff hc.sound.types.names).mpr he

/-! ### Registries -/

/-- **Nodes that lay out what is read by their rules**: they agree, and their formats are written on
one line and read by rules of their own. -/
structure Markup.Redraftable (c : Markup.Compiler) (d : SchemaType) (nodes : List Markup.Node) :
    Prop where
  agreeing : Everywhere c.catalog (Agreeing c) d nodes
  formats : ∀ issued set, (c.compile nodes d issued).1 = .ok set →
    FormatsOwn set (c.formats nodes d)
  lines : ∀ x ∈ c.formats nodes d, ¬ x.1.BreaksLine x.2

namespace Registry

variable {c : Markup.Compiler} {d : SchemaType} {text markup : String} {r r' : Registry}
  {g : Grammar} {v : Value}

/-- **What the grammar of markup reads** is laid out by the nodes of the markup, if it is accepted as
an instance of the type. -/
theorem document_of_read (hc : c.catalog.Built) (hlines : ∀ f ∈ c.catalog.files, f.model.OneLine)
    (hd : c.catalog.types.find? d.fqn = some d) (hbuilds : Builds c d markup r r')
    (hnodes : ∀ b, r'.blueprint = some b → Markup.Redraftable c d b.nodes)
    (hg : r'.grammar = some g) {ctx : ReadingContext} (hclock : ctx.WholeMinutes)
    {file : Option String} (hread : g.read text ctx file = .ok v) (hclass : Instance.isOf d v = true)
    (hvalid : c.catalog.checkData v (some d.fqn) = .ok ()) :
    ∃ b doc, r'.blueprint = some b ∧ c.drafter.draft b.nodes v d = .ok doc := by
  obtain ⟨g', nodes, source, rfl, ⟨-, issued, set, hset, hwrite⟩, hsource⟩ := hbuilds.installed
  obtain rfl : g' = g := Option.some.inj hg
  have hnodes := hnodes _ rfl
  obtain ⟨hsame, -⟩ := same_of_readSource hc hlines hd hnodes.lines hset hwrite hsource
  have hstart : g'.rules.start.getD "" = Markup.topStem := by
    rw [hsame.start, (Markup.Compiler.joined_of_compile hc hd hset).2.2.2]
    rfl
  obtain ⟨e, hparse, hv⟩ := Outcome.bind_eq_ok.mp hread
  rcases Grammar.parse_cases g' text file with ⟨e', hparse', hderives⟩ | ⟨f, hparse', -⟩
  · obtain rfl : e = e' := Except.ok.inj (hparse.symm.trans hparse')
    rw [hstart] at hderives
    rw [hsame.evaluate] at hv
    obtain ⟨doc, hdoc⟩ := Markup.Compiler.draft_of_derives hc hd hset hnodes.agreeing
      (hnodes.formats issued set hset) hclock (hsame.derives hderives) hv hclass hvalid
    exact ⟨_, doc, rfl, hdoc⟩
  · cases hparse.symm.trans hparse'

end Registry

/-! ### Templates -/

namespace Template

/-- **The grammar in force is that of markup**, from which it was built. -/
def BuiltFromMarkup (t : Template) : Prop :=
  ∃ type markup r, t.type = .ok type ∧ Registry.Builds t.compiler type markup r t.registry

/-- Building a grammar puts that of markup into force. -/
theorem builtFromMarkup_of_build {t t' : Template} {text : Option String} {s s' : Session}
    (h : (Template.build text).run t s = (.ok (), t', s')) : t'.BuiltFromMarkup := by
  obtain ⟨markup, type, r', -, htype, hbuilds, rfl⟩ := (build_ends text t).ok h
  unfold withMarkup
  split
  · exact ⟨type, markup, t.registry, htype, hbuilds⟩
  · exact ⟨type, markup, t.registry, htype, hbuilds⟩

/-- A grammar was in force, or is built now. -/
def Ensured (t t' : Template) : Prop :=
  (t.registry.isBuilt = true ∧ t' = t) ∨
    t.registry.isBuilt = false ∧ ∃ r', t.Rebuilds r' ∧ t' = { t with registry := r' }

theorem Ensured.builtFromMarkup {t t' : Template} (h : t.Ensured t')
    (hbuilt : t.registry.isBuilt = true → t.BuiltFromMarkup) :
    t'.BuiltFromMarkup ∧ t'.catalog = t.catalog := by
  rcases h with ⟨h, rfl⟩ | ⟨-, r', ⟨markup, type, -, htype, hbuilds⟩, rfl⟩
  · exact ⟨hbuilt h, rfl⟩
  · exact ⟨⟨type, markup, t.registry, htype, hbuilds⟩, rfl⟩

/-- The nodes of markup are at hand if a grammar was built from it. -/
theorem run_nodes_some {t : Template} {b : Blueprint} (hbuilt : t.registry.isBuilt = true)
    (hb : t.registry.blueprint = some b) (s : Session) :
    nodes.run t s = (.ok b.nodes, t, s) := by
  unfold nodes
  rw [run_bind_ok (run_ensureGrammar hbuilt s),
    run_bind_ok (run_state t s), hb]
  rfl

end Template

/-! ### Instances -/

namespace Instance

variable {i i' : Instance} {text : String} {clock : Option Int} {file : Option String}
  {zones : String → Option Zone} {v : Value} {session session' : Session}

/-- Data that is set is an instance of the type, and has been accepted; otherwise nothing changes. -/
theorem setData_spec (data : Value) (i : Instance) : (setData data).Ends i
    (fun _ i' => i' = { i with data := some data } ∧ ∃ type, i.template.type = .ok type ∧
      isOf type data = true ∧ i.template.checkData data = .ok ()) fun _ i' => i' = i := by
  unfold setData
  refine Ends.of_state (Ends.of_ofOutcome (fun type htype => ?_) fun _ _ => rfl)
  cases hclass : isOf type data with
  | false => exact ends_throw rfl
  | true =>
    have hcheck : (do
        Work.note .debug "templates" ("Setting data: " ++ Json.spaced data)
        Work.ofOutcome (i.template.checkData data)
        Work.change fun i => { i with data := some data } : Work Instance Unit).Ends i
        (fun _ i' => i' = { i with data := some data } ∧ ∃ type, i.template.type = .ok type ∧
          isOf type data = true ∧ i.template.checkData data = .ok ()) fun _ i' => i' = i :=
      Ends.of_note (Ends.of_ofOutcome
        (fun _ hvalid => ends_change ⟨rfl, type, htype, hclass, hvalid⟩) fun _ _ => rfl)
    exact hcheck

/-- Reading a document leaves an instance as it is. -/
theorem extract_ends (document : Document) (ctx : ReadingContext) (file : Option String)
    (i : Instance) :
    (onTemplate (Template.onRegistry fun type => Registry.extract type document ctx file)).Ends i
      (fun v i' => i' = i ∧ ∃ g, i.template.registry.grammar = some g ∧
        g.read document.write ctx file = .ok v) fun _ i' => i' = i := by
  refine onTemplate_ends (Template.onRegistry_ends (fun type _ => ?_) fun _ _ => rfl)
  unfold Registry.extract
  refine (Registry.read_ends document.write ctx file i.template.registry).bind ?_
    fun _ _ h => h.1 ▸ rfl
  rintro v _ ⟨rfl, hv⟩
  obtain ⟨g, hg, hv⟩ := Outcome.bind_eq_ok.mp hv
  refine Ends.of_note (ends_pure ⟨rfl, g, ?_, hv⟩)
  unfold Registry.current at hg
  split at hg
  · cases hg
    assumption
  · cases hg

/-- **What an instance has read** is its data: what the grammar in force makes of the text, which is
built if there is none. It has been accepted as an instance of the type. If nothing is read, the data
is as it was. -/
theorem readData_ends (text : String) (clock : Option Int) (file : Option String)
    (zones : String → Option Zone) (i : Instance) :
    (Instance.read text clock file zones).Ends i (fun v i' =>
      i.template.Ensured i'.template ∧ i'.data = some v ∧
      ∃ g type, i'.template.registry.grammar = some g ∧ g.read (Document.read text).write
          { clock, settings := i.template.settings, zones } file = .ok v ∧
        i'.template.type = .ok type ∧ isOf type v = true ∧ i'.template.checkData v = .ok ()) fun _ i' => i'.data = i.data := by
  have hensure : (onTemplate Template.ensureGrammar).Ends i
      (fun _ i' => i.template.Ensured i'.template ∧ i'.data = i.data) fun _ i' => i'.data = i.data :=
    onTemplate_ends ((Template.ensureGrammar_ends i.template).mono (fun _ _ h => ⟨h, rfl⟩)
      fun _ _ _ => rfl)
  unfold Instance.read
  refine Ends.of_state (Ends.within (hensure.bind ?_ fun _ _ h => h) _)
  rintro _ i₁ ⟨h₁, hdata⟩
  refine (extract_ends _ _ file i₁).bind ?_ fun _ _ h => h ▸ hdata
  rintro v _ ⟨rfl, g, hg, hv⟩
  refine (setData_spec v _).bind ?_ fun _ _ h => h ▸ hdata
  rintro _ _ ⟨rfl, type, htype, hclass, hvalid⟩
  exact ends_pure ⟨h₁, rfl, g, type, hg, hv, htype, hclass, hvalid⟩

/-- **Data that can be laid out** is drafted in every format. -/
theorem run_draft {type : SchemaType} {b : Blueprint} {doc : Document} (hdata : i.data = some v)
    (hbuilt : i.template.registry.isBuilt = true) (hb : i.template.registry.blueprint = some b)
    (htype : i.template.type = .ok type)
    (hdoc : i.template.compiler.drafter.draft b.nodes v type = .ok doc) {name : String}
    {format : Rendering} (hformat : (name, format) ∈ Rendering.names) (session : Session) :
    ∃ session', (Instance.draft (.ok { format := name })).run i session
      = (.ok (format.write doc), i, session') := by
  have hrender : (DraftOptions.mk name false).render doc = .ok (format.write doc) := by
    have hname : Rendering.ofName name = .ok format := by
      fin_cases hformat <;> rfl
    unfold DraftOptions.render
    rw [hname]
    rfl
  have hdocument : ∀ s, (Instance.document v).run i s = (.ok doc, i, s) := by
    intro s
    unfold Instance.document
    rw [run_bind_ok (run_onTemplate (Template.run_nodes_some hbuilt hb s)),
      run_bind_ok (run_state i s), run_bind_ok (run_ofOutcome htype i s)]
    exact Prod.ext hdoc rfl
  have hwork : (do
      let d ← Instance.document v
      ofOutcome ((DraftOptions.mk name false).render d) : Work Instance Value).run i
        { session with scope := i.template.scope }
          = (.ok (format.write doc), i, { session with scope := i.template.scope }) := by
    rw [run_bind_ok (hdocument _)]
    exact Prod.ext hrender rfl
  have hwithin := run_within hwork
  unfold Instance.draft
  rw [run_bind_ok (run_state i session), hdata]
  exact ⟨_, hwithin⟩

/-- A text is read by the grammar in force. -/
theorem run_extract {g : Grammar} {type : SchemaType} {ctx : ReadingContext}
    (hg : i.template.registry.grammar = some g)
    (hv : g.read (Document.read text).write ctx file = .ok v) (htype : i.template.type = .ok type)
    (session : Session) : ∃ session', (onTemplate (Template.onRegistry fun type =>
      Registry.extract type (Document.read text) ctx file)).run i session = (.ok v, i, session') := by
  rcases hrun : (Registry.extract type (Document.read text) ctx file).run i.template.registry session
    with ⟨o, r', s'⟩
  have hvalue := Registry.run_extract hg type (Document.read text) ctx file session
  rw [hrun, hv] at hvalue
  obtain rfl : o = .ok v := hvalue
  have hrun := run_onTemplate (i := i) (Template.run_onRegistry
    (w := fun type => Registry.extract type (Document.read text) ctx file) htype hrun)
  obtain ⟨hsame, -⟩ := (extract_ends (Document.read text) ctx file i).ok hrun
  exact ⟨s', hsame ▸ hrun⟩

/-- A value that is accepted becomes the data. -/
theorem run_setData {type : SchemaType} (htype : i.template.type = .ok type)
    (hclass : isOf type v = true) (hvalid : i.template.checkData v = .ok ()) (session : Session) :
    ∃ session', (setData v).run i session = (.ok (), { i with data := some v }, session') := by
  obtain ⟨s', -, hnote⟩ :=
    run_note .debug "templates" ("Setting data: " ++ Json.spaced v) none i session
  unfold setData
  rw [run_bind_ok (run_state i session), run_bind_ok (run_ofOutcome htype i session), hclass]
  simp only [if_true]
  rw [run_bind_ok hnote, run_bind_ok (run_ofOutcome hvalid i s')]
  exact ⟨s', rfl⟩

/-- A text is read by the grammar in force, and the value becomes the data if it is accepted. -/
theorem run_read {g : Grammar} {type : SchemaType} (hg : i.template.registry.grammar = some g)
    (hv : g.read (Document.read text).write { clock, settings := i.template.settings, zones } file
      = .ok v)
    (htype : i.template.type = .ok type) (hclass : isOf type v = true)
    (hvalid : i.template.checkData v = .ok ()) (session : Session) :
    ∃ session', (Instance.read text clock file zones).run i session
      = (.ok v, { i with data := some v }, session') := by
  have hbuilt : i.template.registry.isBuilt = true := by
    rw [Registry.isBuilt, hg]
    rfl
  obtain ⟨s₁, hvalue⟩ := run_extract hg hv htype { session with scope := i.template.scope file }
  obtain ⟨s₂, hdata⟩ := run_setData htype hclass hvalid s₁
  have hwork : (do
      onTemplate Template.ensureGrammar
      let data ← onTemplate (Template.onRegistry fun type => Registry.extract type
        (Document.read text) { clock, settings := i.template.settings, zones } file)
      setData data
      return data : Work Instance Value).run i { session with scope := i.template.scope file }
        = (.ok v, { i with data := some v }, s₂) := by
    rw [run_bind_ok (run_onTemplate (Template.run_ensureGrammar hbuilt _)), run_bind_ok hvalue,
      run_bind_ok hdata]
    rfl
  have hread := run_within hwork
  unfold Instance.read
  rw [run_bind_ok (run_state i session)]
  exact ⟨_, hread⟩

/-- **An instance drafts what it has read.** Unless a grammar is in force that was not built from
markup, the value of a text that has been read is the data of the instance; and if the nodes of the
markup agree, and the clocks are set by whole minutes, every format of drafting has a result. -/
theorem draft_of_read
    (hread : (Instance.read text clock file zones).run i session = (.ok v, i', session'))
    (hclock : ({ clock, settings := i.template.settings, zones } : ReadingContext).WholeMinutes)
    (hbuilt : i.template.registry.isBuilt = true → i.template.BuiltFromMarkup)
    (hc : i.template.catalog.Built) (hlines : ∀ f ∈ i.template.catalog.files, f.model.OneLine)
    (hnodes : ∀ type b, i'.template.type = .ok type → i'.template.registry.blueprint = some b →
      Markup.Redraftable i'.template.compiler type b.nodes) :
    i'.data = some v ∧ ∃ doc, ∀ x ∈ Rendering.names, ∀ session, ∃ session',
      (Instance.draft (.ok { format := x.1 })).run i' session
        = (.ok (x.2.write doc), i', session') := by
  obtain ⟨hensured, hdata, g, type, hg, hv, htype, hclass, hvalid⟩ :=
    (readData_ends _ _ _ _ _).ok hread
  obtain ⟨⟨type', markup, r, htype', hbuilds⟩, hcatalog⟩ :=
    hensured.builtFromMarkup hbuilt
  obtain rfl : type' = type := Except.ok.inj (htype'.symm.trans htype)
  rw [← hcatalog] at hc hlines
  have hvalid : i'.template.catalog.checkData v (some type'.fqn) = .ok () := by
    unfold Template.checkData at hvalid
    rwa [htype] at hvalid
  have hisBuilt : i'.template.registry.isBuilt = true := by
    rw [Registry.isBuilt, hg]
    rfl
  obtain ⟨b, doc, hb, hdoc⟩ := Registry.document_of_read (c := i'.template.compiler) hc hlines
    (Catalog.find_templateType hc htype) hbuilds (hnodes type' · htype) hg hclock hv hclass hvalid
  exact ⟨hdata, doc, fun x hx session => run_draft hdata hisBuilt hb htype hdoc hx session⟩

end Instance

/-! ### A note -/

namespace Note

open Markup

/-- A model of notes, which are by somebody. -/
def model : ModelFile where
  ns := "note"
  declarations :=
    [{ kind := .asset, name := "Note", extends? := some "Clause"
       properties := [{ name := "by", type := "String" }] }]

def markup : String :=
  "\x7b\x7bby\x7d\x7d, \x7b\x7bby\x7d\x7d."

def template : Template where
  environment := { identifier := toString }
  metadata := { info := { name := "note", version := "1.0.0", profile := { kind := .clause } } }
  models := [("model/note.json", model.toValue)]
  markup := some markup
  catalog := (Catalog.system.add model.toValue).2

def nodes : List Node :=
  [.binding "by" none ⟨1, 3⟩, .text ", " false ⟨1, 7⟩, .binding "by" none ⟨1, 11⟩,
    .text "." true ⟨1, 15⟩]

/-- Whether nodes are those of the markup. -/
def isRead : List Node → Bool
  | [.binding a none p, .text b false q, .binding c none r, .text d true s] =>
    [a, b, c, d] == ["by", ", ", "by", "."]
      && decide ([p, q, r, s] = [⟨1, 3⟩, ⟨1, 7⟩, ⟨1, 11⟩, ⟨1, 15⟩])
  | _ => false

theorem eq_nodes {level : List Node} (h : isRead level = true) : level = nodes := by
  unfold isRead at h
  split at h
  · simp only [Bool.and_eq_true, beq_iff_eq, decide_eq_true_eq, List.cons.injEq, and_true] at h
    obtain ⟨⟨rfl, rfl, rfl, rfl⟩, rfl, rfl, rfl, rfl⟩ := h
    rfl
  · cases h

def type : SchemaType :=
  (template.catalog.types.find? "note.Note").getD default

/-- A text of a note; the name that comes first is read. -/
def text : String :=
  "\"Ann\", \"Ben\"."

def value : Value :=
  .object [("$class", .text "note.Note"), ("clauseId", .text "0"), ("by", .text "Ann")]

theorem evaluated : template.catalog.types.find? type.fqn = some type ∧
    template.type.toOption.any (· = type) = true ∧ (∀ f ∈ template.catalog.files, '\n' ∉ f.model.ns.toList ∧
      ∀ d ∈ f.model.declarations, '\n' ∉ d.name.toList ∧ ∀ p ∈ d.properties, '\n' ∉ p.name.toList) ∧
    (Document.read markup).write = markup ∧ (Document.read text).write = text ∧
    Instance.isOf type value = true ∧ (template.checkData value).isOk = true ∧
    type.identifier? = some "clauseId" := by
  decide +kernel

theorem markup_tree : (Markup.cfg.exhaust markup.toList 20 (.goal .level) 0 markup.toList.length).any
    (fun ts => match ts with
      | [t] => (levelOf (Text.Position.of markup.toList) template.settings.joinSeparator t).toOption.any
          fun level => isRead (markLast level)
      | _ => false) = true := by
  decide +kernel

theorem text_tree : (template.compiler.compile nodes type 0).1.toOption.any (fun set => set.usable &&
    Grammar.readsOnly set topStem text fun d =>
      (d.evaluate set {}).toOption.any value.identical) = true := by
  decide +kernel

theorem read_markup (file : Option String) :
    Markup.read (Document.read markup).write file template.settings.joinSeparator = .ok nodes := by
  have htree := markup_tree
  rw [evaluated.2.2.2.1]
  cases hts : Markup.cfg.exhaust markup.toList 20 (.goal .level) 0 markup.toList.length with
  | none =>
    rw [hts] at htree
    cases htree
  | some ts =>
    rw [hts, Option.any_some] at htree
    split at htree
    · obtain ⟨level, hlevel, htest⟩ := Outcome.exists_of_any htree
      rw [read_of_exhaust hts hlevel, eq_nodes htest]
    · cases htree

/-- The nodes are texts, and bind one property in one way. -/
theorem redraftable : Redraftable template.compiler type nodes := by
  have hformats : template.compiler.formats nodes type = [] := by
    simp [Compiler.formats, Compiler.formatsOf, nodes]
  have hblocks : ∀ kind field nested place, Node.block kind field nested place ∉ nodes := by
    simp [nodes]
  have hfield : ∀ n ∈ nodes, ∀ field, n.field? = some field →
      field = "by" ∧ ∃ place, n = .binding "by" none place := by
    simp [nodes, Node.field?]
  have hagree : Agreeing template.compiler type nodes := by
    refine ⟨fun kind field nested place _ hn => absurd hn (hblocks kind field nested place), ?_, ?_⟩
    · intro n hn field _ hbound hkey
      rw [(hfield n hn field hbound).1, evaluated.2.2.2.2.2.2.2] at hkey
      exact absurd hkey (by decide)
    · intro n' hn' field n hbound _ hfind
      obtain ⟨rfl, place', rfl⟩ := hfield n' hn' field hbound
      cases hfind
      exact .alike rfl
  refine ⟨.level hagree fun kind field nested place _ _ hn =>
    absurd hn (hblocks kind field nested place), fun _ _ _ => ?_, ?_⟩
  · rw [hformats]
    rintro _ _ ⟨⟩
  · simp [hformats]

theorem read_text : ∃ set, (template.compiler.compile nodes type 0).1 = .ok set ∧
    set.usable = true ∧ ∀ g : Grammar, g.rules.Same set → set.start = some topStem →
      ∀ file, g.read text {} file = .ok value := by
  obtain ⟨set, hset, htest⟩ := Outcome.exists_of_any text_tree
  obtain ⟨husable, htree⟩ := (Bool.and_eq_true _ _).mp htest
  refine ⟨set, hset, husable, fun g hsame hstart file => ?_⟩
  obtain ⟨d, hparse, hd⟩ := Grammar.exists_parse hsame hstart htree file
  obtain ⟨v, hv, hvalue⟩ := Outcome.exists_of_any hd
  unfold Grammar.read
  rw [hparse, Value.eq_of_identical hvalue, ← hv, ← hsame.evaluate]
  rfl

theorem type_template : template.type = .ok type := by
  obtain ⟨d, hd, htest⟩ := Outcome.exists_of_any evaluated.2.1
  rw [hd, of_decide_eq_true htest]

theorem built : template.catalog.Built :=
  .add .system _ _

theorem oneLine : ∀ f ∈ template.catalog.files, f.model.OneLine := fun f hf =>
  have hf := evaluated.2.2.1 f hf
  ⟨hf.1, fun d hd => (hf.2 d hd).1, fun d hd => (hf.2 d hd).2⟩

/-- The grammar of notes can be built, and reads the text. -/
theorem exists_grammar : ∃ g, (∃ s, Template.build.run template {} = (.ok (), { template with
      registry := ⟨some g, some ⟨(Document.read markup).write, nodes⟩⟩ }, s)) ∧
    ∀ file, g.read text {} file = .ok value := by
  obtain ⟨set, hset, husable, hread⟩ := read_text
  have hc : template.compiler.catalog.Built := built
  have hd := evaluated.1
  obtain ⟨source, hwrite, hsource⟩ :=
    Registry.readSource_compile hc oneLine hd redraftable.lines hset husable
  obtain ⟨t, hg, hsame⟩ := hsource template.compiler.settings.grammarFile
  refine ⟨⟨t, some source⟩, Template.run_rebuild rfl type_template fun s hs => ?_,
    hread ⟨t, some source⟩ hsame (Compiler.joined_of_compile hc hd hset).2.2.2⟩
  have hissued : (template.compiler.compile nodes type s.issued).1 = .ok set := hs ▸ hset
  exact Registry.run_build (c := template.compiler) (read_markup _) hissued hwrite hg _

/-- **A note is drafted** as it was read, by the name that comes first. -/
theorem draft_note : ∃ (i i' : Instance) (session session' : Session),
    (Instance.read text).run i session = (.ok value, i', session') ∧
      ({ settings := i.template.settings } : ReadingContext).WholeMinutes ∧
      i.template.registry.isBuilt = true ∧ i.template.BuiltFromMarkup ∧ i.template.catalog.Built ∧
      (∀ f ∈ i.template.catalog.files, f.model.OneLine) ∧
      (∀ type b, i'.template.type = .ok type → i'.template.registry.blueprint = some b →
        Redraftable i'.template.compiler type b.nodes) ∧
      i'.data = some value ∧ ∃ doc, ∀ x ∈ Rendering.names, ∀ session, ∃ session',
        (Instance.draft (.ok { format := x.1 })).run i' session
          = (.ok (x.2.write doc), i', session') := by
  obtain ⟨g, ⟨s, hbuild⟩, hv⟩ := exists_grammar
  obtain ⟨-, -, -, -, htext, hclass, hvalid, -⟩ := evaluated
  obtain ⟨_, hvalid⟩ := Outcome.isOk_iff.mp hvalid
  have hv := hv none
  rw [← htext] at hv
  let t : Template := { template with
    registry := ⟨some g, some ⟨(Document.read markup).write, nodes⟩⟩ }
  obtain ⟨s', hread⟩ : ∃ s', (Instance.read text).run { template := t } {}
      = (.ok value, { template := t, data := some value }, s') :=
    Instance.run_read rfl hv type_template hclass hvalid {}
  have hc : t.catalog.Built := built
  have hbuilt : t.BuiltFromMarkup := Template.builtFromMarkup_of_build hbuild
  have htype : t.type = .ok type := type_template
  have hnodes : ∀ type b, t.type = .ok type → t.registry.blueprint = some b →
      Redraftable t.compiler type b.nodes := by
    intro type' b htype' hb
    obtain rfl : type = type' := Except.ok.inj (htype.symm.trans htype')
    obtain rfl : _ = b := Option.some.inj hb
    exact redraftable
  have hclock : ({ settings := t.settings } : ReadingContext).WholeMinutes :=
    ⟨nofun, fun _ _ => Int.dvd_zero _⟩
  exact ⟨_, _, _, _, hread, hclock, rfl, hbuilt, hc, oneLine, hnodes,
    Instance.draft_of_read hread hclock (fun _ => hbuilt) hc oneLine hnodes⟩

end Note

end Covenant
