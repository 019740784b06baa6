import Covenant.Document.Rendering
import Covenant.Grammar.Reading
import Covenant.Proofs.Document.Lines
import Covenant.Proofs.Grammar.Exact
import Covenant.Proofs.Grammar.Lineless
import Covenant.Proofs.Markup.RoundTrip
import Covenant.Proofs.Value.Shape

/-!
Line feeds in drafted texts.

* `Course`: what must hold before a piece of a text is read for something to hold after it.
* `levelCourse`: the course of what the nodes of a level read, for all values of conditions, with
  blocks absent and with lists of any length.
* `Ruled.along`: every text that the rule of a node reads follows the course of the node.
* `Compiler.keepsFeeds`: whether all texts of a template are in normal form, as its course tells.
* `Compiler.reads_markdown`: the markdown of a document is read as its plain text is, by the rules of
  a template that keeps its line feeds.
-/

namespace Covenant.Markup

/-! ### Courses -/

/-- **A course** tells, for something that is asked of the state after a piece of a text, whether it
holds of every such state. The piece is read from a given state, and is one of several. -/
abbrev Course :=
  (LineState → Bool) → LineState → Bool

namespace Course

def text (t : String) : Course := fun Q a => (a.read t.toList).any Q

def skip : Course := id

def never : Course := fun _ _ => false

/-- The course of texts without line breaks, of which none is empty if they are filled. -/
def lineless (filled : Bool) : Course := fun Q a => Q .inside && (filled || Q a)

def either (f g : Course) : Course := fun Q a => f Q a && g Q a

def seq (f g : Course) : Course := fun Q => f (g Q)

/-- Any number of rounds, none of which leaves some set of states. -/
def many (f : Course) : Course := fun Q a =>
  [LineState.start, .inside, .feed, .blank].sublists.any fun within =>
    within.contains a && within.all fun b => Q b && f within.contains b

/-- **A text follows a course** if what is asked holds after it. -/
def Leads (f : Course) (cs : List Char) : Prop :=
  ∀ Q a, f Q a = true → ∃ b, a.read cs = some b ∧ Q b = true

variable {f g : Course} {cs cs' : List Char}

/-- A literal leads over its own characters. -/
theorem leads_text (t : String) : (text t).Leads t.toList := by
  intro Q a h
  cases hread : a.read t.toList with
  | none => simp [text, hread] at h
  | some b => exact ⟨b, rfl, by simpa [text, hread] using h⟩

theorem leads_skip : skip.Leads [] :=
  fun _ a h => ⟨a, rfl, h⟩

theorem leads_never : never.Leads cs :=
  fun _ _ h => nomatch h

/-- A stretch without line breaks is led over. -/
theorem leads_lineless {filled : Bool} (hbreak : '\n' ∉ cs ∧ '\r' ∉ cs)
    (hfilled : filled = true → cs ≠ []) : (lineless filled).Leads cs := by
  intro Q a h
  obtain ⟨hinside, hempty⟩ := (Bool.and_eq_true _ _).mp h
  by_cases hcs : cs = []
  · subst hcs
    exact ⟨a, rfl, ((Bool.or_eq_true _ _).mp hempty).resolve_left fun h => hfilled h rfl⟩
  · exact ⟨.inside, LineState.read_inside hcs hbreak.1 hbreak.2, hinside⟩

/-- What one of two courses leads over is led over by both together, ... -/
theorem Leads.left (h : f.Leads cs) : (either f g).Leads cs :=
  fun Q a hboth => h Q a ((Bool.and_eq_true _ _).mp hboth).1

/-- ... on either side. -/
theorem Leads.right (h : g.Leads cs) : (either f g).Leads cs :=
  fun Q a hboth => h Q a ((Bool.and_eq_true _ _).mp hboth).2

/-- One course after the other. -/
theorem Leads.seq (hf : f.Leads cs) (hg : g.Leads cs') : (f.seq g).Leads (cs ++ cs') := by
  intro Q a h
  obtain ⟨b, hb, h⟩ := hf _ a h
  obtain ⟨b', hb', hQ⟩ := hg Q b h
  refine ⟨b', ?_, hQ⟩
  rw [LineState.read_append, hb, Option.bind_some, hb']

/-- Rounds that each follow a course. -/
theorem leads_many {α : Type} {as : List α} {css : List (List Char)}
    (h : List.Forall₂ (fun _ cs => f.Leads cs) as css) : (many f).Leads css.flatten := by
  intro Q a hmany
  obtain ⟨within, -, hwithin⟩ := List.any_eq_true.mp hmany
  obtain ⟨ha, hround⟩ := (Bool.and_eq_true _ _).mp hwithin
  simp only [List.all_eq_true, Bool.and_eq_true] at hround
  clear hmany hwithin
  induction h generalizing a with
  | nil => exact ⟨a, rfl, (hround a (List.contains_iff_mem.mp ha)).1⟩
  | cons hcs _ ih =>
    obtain ⟨b, hb, hkept⟩ := hcs _ a (hround a (List.contains_iff_mem.mp ha)).2
    obtain ⟨b', hb', hQ⟩ := ih b hkept
    refine ⟨b', ?_, hQ⟩
    rw [List.flatten_cons, LineState.read_append, hb, Option.bind_some, hb']

/-- A literal in two pieces. -/
theorem text_append (t u : String) : text (t ++ u) = (text t).seq (text u) := by
  funext Q a
  rw [text, String.toList_append, LineState.read_append, seq, text]
  cases a.read t.toList with
  | none => rfl
  | some b => rfl

end Course

/-! ### The course of a template -/

open Course

/-- The rules below one: itself, and those that it mentions. -/
def below (set : RuleSet) (name : String) : List String :=
  set.reach (set.rules.foldr (fun r n => r.references.length + 1 + n) 1) [] [name]

/-- The course of what a rule without line breaks reads. -/
def valueCourse (set : RuleSet) (name : String) : Course :=
  if (below set name).contains name && set.lineless (below set name) then
    lineless (set.filled set.rules.length name)
  else never

/-- Once, or as often as the values of a property are there. -/
def often (p : Property) (f : Course) : Course :=
  if p.array then many f else if p.optional then either f skip else f

/-- The course of a property that is bound, in a format if there is one. -/
def boundCourse (set : RuleSet) (d : SchemaType) (field : String) (format : Option String) : Course :=
  match d.property? field with
  | none => never
  | some p =>
    match format with
    | none => often p (valueCourse set p.ruleName)
    | some f =>
      match Formatted.ofType? p.type with
      | some k => often p (valueCourse set (k.ruleName f))
      | none => never

mutual

/-- **The course of a node**: of the texts for both truth values, of a block that is there and of one
that is not, and of a list with any number of items. -/
def nodeCourse (c : Compiler) (set : RuleSet) : Node → SchemaType → Course
  | .text body _ _ => fun _ => text body
  | .binding field format _ => fun d => boundCourse set d field format
  | .formatted field format _ => fun d => boundCourse set d field (some format)
  | .shown _ whenTrue _ => fun _ => either (text whenTrue) skip
  | .choice _ whenTrue whenFalse _ => fun _ => either (text whenTrue) (text whenFalse)
  | .block kind field nested _ => fun d =>
    match d.property? field with
    | none => never
    | some p =>
      match c.catalog.types.find? p.type with
      | none => never
      | some e =>
        match kind with
        | .list style =>
          ((text (style.leads c.settings).1).seq (levelCourse c set nested e)).seq
            (many ((text (style.leads c.settings).2).seq (levelCourse c set nested e)))
        | _ => often p (levelCourse c set nested e)
  | .expression .. | .foreign .. => fun _ => never

/-- **The course of a level.** -/
def levelCourse (c : Compiler) (set : RuleSet) : List Node → SchemaType → Course
  | [] => fun _ => skip
  | n :: ns => fun d => (nodeCourse c set n d).seq (levelCourse c set ns d)

end

/-- **Whether a template keeps its line feeds**: whatever is read by its rules has no line feeds at
its start and its end, and no three in a row. -/
def Compiler.keepsFeeds (c : Compiler) (set : RuleSet) (nodes : List Node) (d : SchemaType) : Bool :=
  levelCourse c set nodes d (fun b => b = .start || b = .inside) .start

/-! ### Texts follow the course -/

section

variable {c : Compiler} {set : RuleSet} {ctx : ReadingContext}

/-- Every text that a rule reads follows a course. -/
def Along (set : RuleSet) (ctx : ReadingContext) (name : String) (f : Course) : Prop :=
  ∀ cs v, Reads set ctx (.rule name) cs v → f.Leads cs

/-- A value of a type is drafted along the course of the type's rule. -/
theorem along_valueCourse (name : String) : Along set ctx name (valueCourse set name) := by
  rintro cs v ⟨d, hd, hv⟩
  unfold valueCourse
  split
  · rename_i hlines
    obtain ⟨hname, hlines⟩ := (Bool.and_eq_true _ _).mp hlines
    refine leads_lineless (hd.not_break hlines hname hv) ?_
    rintro hfilled rfl
    exact RuleSet.not_derives_nil hfilled d hd
  · exact leads_never

/-- Symbols one after the other read pieces of a text. -/
theorem exists_pieces {α : Type} {f : α → Symbol} {as : List α} {P : α → List Char → Prop}
    (hP : ∀ a ∈ as, ∀ cs v, Reads set ctx (f a) cs v → P a cs) {cs : List Char}
    {ds : List Derivation} {vs : List Value} (h : DerivesAll set (as.map f) cs ds)
    (hvs : Derivation.evaluateAll set ctx ds = .ok vs) :
    ∃ css, cs = css.flatten ∧ List.Forall₂ P as css := by
  induction as generalizing cs ds vs with
  | nil =>
    obtain ⟨rfl, -⟩ := derivesAll_nil_iff.mp h
    exact ⟨[], rfl, .nil⟩
  | cons a as ih =>
    obtain ⟨cs₁, cs₂, d, ds, rfl, rfl, hd, hds⟩ := derivesAll_cons_iff.mp h
    obtain ⟨v, vs, hv, hvs, -⟩ := Derivation.evaluateAll_cons_eq_ok.mp hvs
    obtain ⟨hfirst, hrest⟩ := List.forall_mem_cons.mp hP
    obtain ⟨css, rfl, hcss⟩ := ih hrest hds hvs
    exact ⟨cs₁ :: css, rfl, .cons (hfirst cs₁ v ⟨d, hd, hv⟩) hcss⟩

/-- Any number of repetitions is led over by the starred course. -/
theorem leads_rounds {name : String} {f : Course} (h : Along set ctx name f) {n : Nat}
    {cs : List Char} {ds : List Derivation} {vs : List Value}
    (hds : DerivesAll set (List.replicate n (.rule name)) cs ds)
    (hvs : Derivation.evaluateAll set ctx ds = .ok vs) : (many f).Leads cs := by
  have hmap : DerivesAll set ((List.replicate n ()).map fun _ => .rule name) cs ds := by
    simpa using hds
  obtain ⟨css, rfl, hcss⟩ := exists_pieces (fun _ _ => h) hmap hvs
  exact leads_many hcss

/-- Values of a property follow the course of one value, as often as they are there. -/
theorem leads_often {p : Property} {target : String} {f : Course} (h : Along set ctx target f)
    {cs : List Char} {e : Derivation} {v : Value}
    (he : Derives set (.rule target p.cardinality) cs e) (hv : e.evaluate set ctx = .ok v) :
    (often p f).Leads cs := by
  unfold often
  rcases Catalog.derives_cardinality he hv with
    ⟨harray, n, ds, vs, hds, -, hvs, -⟩ | ⟨harray, hoptional, rfl, -⟩ | ⟨harray, he⟩
  · rw [if_pos harray]
    exact leads_rounds h hds hvs
  · rw [if_neg (by simp [harray]), if_pos hoptional]
    exact leads_skip.right
  · rw [if_neg (by simp [harray])]
    have hone := h cs v ⟨e, he, hv⟩
    split
    · exact hone.left
    · exact hone

/-- A bound property is drafted along the course of its target and cardinality. -/
theorem along_bound {d : SchemaType} {name field target comment : String} {format : Option String}
    {p : Property} (hp : d.property? field = some p) (htarget : Target p format target)
    (hrule : set.Holds (referenceRule name target comment p.cardinality)) :
    Along set ctx name (boundCourse set d field format) := by
  rintro cs v ⟨e, he, hv⟩
  obtain ⟨e', he', -, hv'⟩ := reference_value hrule he hv
  have hone := leads_often (along_valueCourse target) he' hv'
  unfold boundCourse
  rw [hp]
  cases format with
  | none =>
    obtain rfl : target = p.ruleName := htarget
    exact hone
  | some f =>
    obtain ⟨-, k, -, hk, -, rfl⟩ := htarget
    simp only [hk]
    exact hone

/-- The nodes of a level that have no rules are empty texts, which are on no course. -/
theorem leads_numbered {d : SchemaType} (stem : String) {nodes : List Node} {start : Nat}
    {css : List (List Char)} (h : List.Forall₂ (fun m cs => (nodeCourse c set m.2 d).Leads cs)
      (numbered stem nodes start) css) : (levelCourse c set nodes d).Leads css.flatten := by
  induction nodes generalizing start css with
  | nil =>
    cases h
    exact leads_skip
  | cons n ns ih =>
    rw [numbered_cons] at h
    split at h
    · rename_i hsilent
      obtain ⟨last, place, rfl⟩ := Compiler.silent_iff.mp hsilent
      exact ih h
    · cases h with
      | cons hn hns => exact hn.seq (ih hns)

/-- **A level follows its course** if its nodes do. -/
theorem along_level {d : SchemaType} {stem : String} {nodes : List Node}
    (hlevel : HasLevel set d stem nodes)
    (hnodes : ∀ m ∈ numbered stem nodes, Along set ctx m.1 (nodeCourse c set m.2 d)) :
    Along set ctx stem (levelCourse c set nodes d) := by
  rintro cs v ⟨e, he, hv⟩
  obtain ⟨id, hrule⟩ := hlevel.rule
  obtain ⟨q, alternative, ds, vs, rfl, hq, hds, hvs, -⟩ := Derivation.node_of_derives he hv hrule
  obtain rfl := List.mem_singleton.mp (List.mem_of_getElem? hq)
  obtain ⟨css, rfl, hcss⟩ := exists_pieces hnodes hds hvs
  exact leads_numbered stem hcss

/-- A text in front of a level comes first in its course. -/
theorem levelCourse_lead {d : SchemaType} {start : String} {nodes led : List Node}
    (h : lead start nodes = .ok led) :
    levelCourse c set led d = (text start).seq (levelCourse c set nodes d) := by
  rcases lead_cases h with ⟨rfl, rfl⟩ | ⟨body, last, place, rest, rfl, rfl⟩ | ⟨place, rfl⟩
  · rfl
  · rw [levelCourse, nodeCourse, text_append]
    rfl
  · rfl

/-- **Every text that a rule of a template reads follows the course** of its node. -/
theorem Ruled.along {d : SchemaType} {name : String} {n : Node} (h : Ruled c set d name n) :
    Along set ctx name (nodeCourse c set n d) := by
  induction h with
  | text hrule =>
    rintro cs v ⟨e, he, hv⟩
    obtain ⟨q, alternative, ds, vs, rfl, hq, hds, hvs, -⟩ := Derivation.node_of_derives he hv hrule
    obtain rfl := List.mem_singleton.mp (List.mem_of_getElem? hq)
    obtain ⟨haccepts, -⟩ := (derivesAll_token_iff (by simp [Symbol.literal]) rfl).mp hds
    rw [Symbol.accepts_literal_iff.mp haccepts]
    exact leads_text _
  | expression hrule => exact fun _ _ _ => leads_never
  | binding hp htarget hrule => exact along_bound hp htarget hrule
  | formatted hp htarget hrule => exact along_bound hp htarget hrule
  | shown _ _ _ htext hrule =>
    intro cs v hv
    obtain ⟨b, -, rfl⟩ := (reads_branch_iff htext hrule).mp hv
    cases b with
    | true => exact (leads_text _).left
    | false => exact leads_skip.right
  | choice _ _ _ htexts hrule =>
    intro cs v hv
    obtain ⟨b, -, rfl⟩ := (reads_branch_iff htexts hrule).mp hv
    cases b with
    | true => exact (leads_text _).left
    | false => exact (leads_text _).right
  | @nested d e name field kind nodes place p hkind hp he hrule hlevel _ ih =>
    rintro cs v ⟨x, hx, hv⟩
    obtain ⟨x', hx', -, hv'⟩ := reference_value hrule hx hv
    have hvalues := leads_often (along_level hlevel ih) hx' hv'
    cases kind with
    | list style => exact absurd rfl (hkind style)
    | clause => simpa only [nodeCourse, hp, he.found] using hvalues
    | within => simpa only [nodeCourse, hp, he.found] using hvalues
  | @list d e name field style nodes first later place p hp harray he hrule hfirst hlater hfirstLevel
      hlaterLevel _ _ ihFirst ihLater =>
    rintro cs v ⟨x, hx, hv⟩
    obtain ⟨cs₁, cs₂, n, d₁, ds, w, ws, rfl, hd₁, -, hw, hds, -, hws, -⟩ :=
      items_value (first_ne field) hrule hx hv
    have hfirsts := along_level hfirstLevel ihFirst cs₁ w ⟨d₁, hd₁, hw⟩
    have hlaters := leads_rounds (along_level hlaterLevel ihLater) hds hws
    rw [levelCourse_lead hfirst] at hfirsts
    rw [levelCourse_lead hlater] at hlaters
    simp only [nodeCourse, hp, he.found]
    exact hfirsts.seq hlaters

end

/-! ### Normal form -/

/-- **What the rules of a template read is in normal form**, if the template keeps its line
feeds. -/
theorem Compiler.isNormal_of_keepsFeeds {c : Compiler} (hc : c.catalog.Built) {d : SchemaType}
    (hd : c.catalog.types.find? d.fqn = some d) {nodes : List Node} {issued : Nat} {set : RuleSet}
    (hset : (c.compile nodes d issued).1 = .ok set) (hkeeps : c.keepsFeeds set nodes d = true)
    {ctx : ReadingContext} {cs : List Char} {v : Value}
    (hreads : Reads set ctx (.rule topStem) cs v) : Document.IsNormal cs := by
  have hlevel := (ruled_of_compile hc hd hset).1
  have halong : Along set ctx topStem (levelCourse c set nodes d) :=
    along_level hlevel.level fun m hm => (hlevel.nodes m hm).along
  obtain ⟨b, hb, hend⟩ := halong cs v hreads _ _ hkeeps
  rcases (Bool.or_eq_true _ _).mp hend with hstart | hinside
  · exact .inl (of_decide_eq_true hstart ▸ hb)
  · exact .inr (of_decide_eq_true hinside ▸ hb)

/-- **Markdown is read as the plain text is.** For every template that is compiled and keeps its
line feeds, and whatever data are drafted, with conditions of both values, blocks that are absent
and lists of any length: if the plain text of the document is read, then the markdown is read as the
same data. -/
theorem Compiler.reads_markdown {c : Compiler} (hc : c.catalog.Built) {d : SchemaType}
    (hd : c.catalog.types.find? d.fqn = some d) {nodes : List Node} {issued : Nat} {set : RuleSet}
    (hset : (c.compile nodes d issued).1 = .ok set) (hkeeps : c.keepsFeeds set nodes d = true)
    {data : Value} {doc : Document} (hdoc : c.drafter.draft nodes data d = .ok doc)
    {ctx : ReadingContext} {v : Value}
    (hreads : Reads set ctx (.rule topStem) doc.plainText.toList v) :
    ∃ text, (c.drafter.draft nodes data d >>= Rendering.markdown.render) = .ok (.text text) ∧
      Reads set ctx (.rule topStem) text.toList v := by
  refine ⟨doc.write, Outcome.bind_eq_ok.mpr ⟨doc, hdoc, rfl⟩, ?_⟩
  rwa [Document.write, Document.normalize_of_isNormal
    (isNormal_of_keepsFeeds hc hd hset hkeeps hreads)]

/-! ### A memo -/

namespace Memo

/-- A model of memos, with lines and perhaps a note, and of slips. -/
def model : ModelFile where
  ns := "memo"
  declarations :=
    [{ kind := .concept, name := "Line", properties := [{ name := "text", type := "String" }] },
     { kind := .asset, name := "Memo", extends? := some "Clause"
       properties := [{ name := "urgent", type := "Boolean" },
         { name := "lines", type := "Line", array := true },
         { name := "note", type := "Line", optional := true }] },
     { kind := .asset, name := "Slip", extends? := some "Clause"
       properties := [{ name := "urgent", type := "Boolean" }] }]

def compiler : Compiler where
  catalog := (Catalog.system.add model.toValue).2
  identifier := toString

def memo : SchemaType :=
  (compiler.catalog.types.find? "memo.Memo").getD default

def slip : SchemaType :=
  (compiler.catalog.types.find? "memo.Slip").getD default

/-- A memo keeps its line feeds: those around the note belong to it. -/
def memoNodes : List Node :=
  [.text "Hi" false ⟨1, 1⟩, .shown "urgent" "!" ⟨1, 8⟩, .text "\n\n" false ⟨1, 23⟩,
    .block (.list .bullets) "lines" [.binding "text" none ⟨3, 20⟩] ⟨3, 10⟩,
    .block .within "note" [.text "\n\nPS " false ⟨3, 51⟩, .binding "text" none ⟨5, 6⟩] ⟨3, 45⟩,
    .text "\n\nBye" true ⟨5, 21⟩]

/-- A slip does not: there are line feeds before and after what it shows. -/
def slipNodes : List Node :=
  [.text "Hi\n\n" false ⟨1, 1⟩, .shown "urgent" "Now!" ⟨3, 6⟩, .text "\n\nBye" true ⟨3, 23⟩]

def line (text : String) : Value :=
  .object [("$class", .text "memo.Line"), ("text", .text text)]

def memoValue : Value :=
  .object [("$class", .text "memo.Memo"), ("clauseId", .text "0"), ("urgent", .bool false),
    ("lines", .list [line "a", line "b"])]

def slipValue : Value :=
  .object [("$class", .text "memo.Slip"), ("clauseId", .text "0"), ("urgent", .bool false)]

/-- Whether trying everything finds a derivation of a text with a value. -/
def readsAs (set : RuleSet) (text : String) (v : Value) : Bool :=
  (set.listed.exhaust text.toList 20 (.goal (.rule topStem)) 0 text.toList.length).any fun ts =>
    ts.any fun t => (t.derivation.evaluate set {}).toOption.any v.identical

theorem types_memo : compiler.catalog.types.find? memo.fqn = some memo ∧
    compiler.catalog.types.find? slip.fqn = some slip := by
  decide +kernel

theorem compile_memo : (compiler.compile memoNodes memo 0).1.toOption.any (fun set =>
    compiler.keepsFeeds set memoNodes memo && set.takesText &&
      readsAs set "Hi\n\n- \"a\"\n- \"b\"\n\nBye" memoValue) = true := by
  decide +kernel

theorem draft_memo : (compiler.drafter.draft memoNodes memoValue memo).toOption.any (fun doc =>
    doc.plainText == "Hi\n\n- \"a\"\n- \"b\"\n\nBye") = true := by
  decide +kernel

theorem reads_of_readsAs {set : RuleSet} (htokens : set.takesText = true) {text : String} {v : Value}
    (h : readsAs set text v = true) : Reads set {} (.rule topStem) text.toList v := by
  obtain ⟨ts, hts, h⟩ := (Option.any_eq_true _ _).mp h
  obtain ⟨t, ht, hvalue⟩ := List.any_eq_true.mp h
  obtain ⟨w, hw, hsame⟩ := Outcome.exists_of_any hvalue
  refine ⟨t.derivation, (RuleSet.derives_iff_mem htokens 20 (congrArg _ hts)).mpr ?_, ?_⟩
  · exact List.mem_map_of_mem ht
  · rw [hw, Value.eq_of_identical hsame]

/-- A memo that is not urgent, with two lines and without a note: its markdown is read as the
memo. -/
theorem reads_markdown_memo : ∃ set doc, compiler.catalog.Built ∧
    compiler.catalog.types.find? memo.fqn = some memo ∧
    (compiler.compile memoNodes memo 0).1 = .ok set ∧
    compiler.keepsFeeds set memoNodes memo = true ∧
    compiler.drafter.draft memoNodes memoValue memo = .ok doc ∧
    Reads set {} (.rule topStem) doc.plainText.toList memoValue ∧
    ∃ text, (compiler.drafter.draft memoNodes memoValue memo >>= Rendering.markdown.render) =
      .ok (.text text) ∧ Reads set {} (.rule topStem) text.toList memoValue := by
  have hc : compiler.catalog.Built := .add .system _ _
  obtain ⟨set, hset, htest⟩ := Outcome.exists_of_any compile_memo
  obtain ⟨htest, hreads⟩ := (Bool.and_eq_true _ _).mp htest
  obtain ⟨hkeeps, htokens⟩ := (Bool.and_eq_true _ _).mp htest
  obtain ⟨doc, hdoc, htext⟩ := Outcome.exists_of_any draft_memo
  rw [← eq_of_beq htext] at hreads
  have hreads := reads_of_readsAs htokens hreads
  exact ⟨set, doc, hc, types_memo.1, hset, hkeeps, hdoc, hreads,
    Compiler.reads_markdown hc types_memo.1 hset hkeeps hdoc hreads⟩

theorem compile_slip : (compiler.compile slipNodes slip 0).1.toOption.any (fun set =>
    !compiler.keepsFeeds set slipNodes slip && set.takesText &&
      readsAs set "Hi\n\n\n\nBye" slipValue &&
      (set.listed.exhaust "Hi\n\nBye".toList 20 (.goal (.rule topStem)) 0 7).any List.isEmpty) = true := by
  decide +kernel

theorem draft_slip : (compiler.drafter.draft slipNodes slipValue slip).toOption.any (fun doc =>
    doc.plainText == "Hi\n\n\n\nBye" && doc.write == "Hi\n\nBye") = true := by
  decide +kernel

/-- A slip that is not urgent: its plain text is read, but its markdown is not. -/
theorem not_reads_slip : ∃ set doc, (compiler.compile slipNodes slip 0).1 = .ok set ∧
    compiler.drafter.draft slipNodes slipValue slip = .ok doc ∧
    Reads set {} (.rule topStem) doc.plainText.toList slipValue ∧
    Rendering.markdown.render doc = .ok (.text "Hi\n\nBye") ∧
    ∀ v, ¬ Reads set {} (.rule topStem) "Hi\n\nBye".toList v := by
  obtain ⟨set, hset, htest⟩ := Outcome.exists_of_any compile_slip
  simp only [Bool.and_eq_true] at htest
  obtain ⟨⟨⟨-, htokens⟩, hreads⟩, hnone⟩ := htest
  obtain ⟨doc, hdoc, htexts⟩ := Outcome.exists_of_any draft_slip
  obtain ⟨hplain, hwrite⟩ := (Bool.and_eq_true _ _).mp htexts
  refine ⟨set, doc, hset, hdoc, ?_, ?_, ?_⟩
  · rw [eq_of_beq hplain]
    exact reads_of_readsAs htokens hreads
  · rw [← eq_of_beq hwrite]
    rfl
  · rintro v ⟨d, hd, -⟩
    obtain ⟨ts, hts, hempty⟩ := (Option.any_eq_true _ _).mp hnone
    obtain rfl := List.isEmpty_iff.mp hempty
    have hmem := (RuleSet.derives_iff_mem htokens 20 (congrArg _ hts)).mp hd
    cases hmem

end Memo

end Covenant.Markup
