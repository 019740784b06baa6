import Covenant.Proofs.Document.Places
import Covenant.Proofs.Document.Unquoting
import Covenant.Proofs.Text.Words

/-!
What an editor shows of a document.

* `Document.leafTexts`: the texts in an editor value, in their order.
* `Document.normalizeChars_groups`: to cut nodes into paragraphs changes no more than the number of
  line feeds between two lines, which a normal form does not tell.
* `Document.NoneInside`: no document stands inside another; drafting, reading and leaving out quotes
  make no other documents.
* `Document.shown_editorValue`: the paragraphs of an editor value have the text of the document.
-/

namespace Covenant

open Text

namespace Document

variable {A cs ds : List Char}

/-! ### Line feeds where texts meet -/

/-- Line breaks after a line feed are those of the text that stands there, whatever it is. A
carriage return in front of the line feed is one line break with it. -/
theorem universalNewlines_feed (cs : List Char) : ∃ lines,
    (∀ ds, universalNewlines (cs ++ '\n' :: ds) = lines ++ '\n' :: universalNewlines ds) ∧
      (universalNewlines cs = lines ∨ universalNewlines cs = lines ++ ['\n']) := by
  induction cs using universalNewlines.induct with
  | case1 => exact ⟨[], fun ds => by simp [universalNewlines], .inl rfl⟩
  | case2 cs ih =>
    obtain ⟨lines, hfeed, hself⟩ := ih
    refine ⟨'\n' :: lines, fun ds => ?_, ?_⟩
    · simp [universalNewlines, hfeed]
    · simpa [universalNewlines] using hself
  | case3 c cs hpair ih =>
    obtain ⟨lines, hfeed, hself⟩ := ih
    have hcons : universalNewlines (c :: cs) = (if c = '\r' then '\n' else c) :: universalNewlines cs := by
      rw [universalNewlines]
      exact hpair
    by_cases hlast : c = '\r' ∧ cs = []
    · obtain ⟨rfl, rfl⟩ := hlast
      exact ⟨[], fun ds => by simp [universalNewlines], .inr (by simp [universalNewlines])⟩
    · refine ⟨(if c = '\r' then '\n' else c) :: lines, fun ds => ?_, ?_⟩
      · rw [List.cons_append, universalNewlines, hfeed, List.cons_append]
        rintro rest hc hrest
        cases cs with
        | nil => exact hlast ⟨hc, rfl⟩
        | cons d cs =>
          obtain rfl : d = '\n' := (List.cons.inj hrest).1
          exact hpair cs hc rfl
      · rw [hcons]
        simpa using hself

theorem squeezeLines_feed (run : Nat) (cs : List Char) : squeezeLines run ('\n' :: cs) =
    if run < 2 then '\n' :: squeezeLines (run + 1) cs else squeezeLines run cs := by
  rw [squeezeLines, if_pos rfl]

/-- Line feeds at the end of a text are squeezed into line feeds. -/
theorem squeezeLines_append_feeds (run : Nat) (cs : List Char) (n : Nat) : ∃ m,
    squeezeLines run (cs ++ List.replicate n '\n') = squeezeLines run cs ++ List.replicate m '\n' := by
  induction cs generalizing run with
  | nil =>
    induction n generalizing run with
    | zero => exact ⟨0, rfl⟩
    | succ n ih =>
      rw [List.nil_append, List.replicate_succ, squeezeLines_feed]
      split
      · obtain ⟨m, hm⟩ := ih (run + 1)
        exact ⟨m + 1, congrArg ('\n' :: ·) hm⟩
      · exact ih run
  | cons c cs ih =>
    rw [List.cons_append, squeezeLines, squeezeLines]
    split
    · split
      · obtain ⟨m, hm⟩ := ih (run + 1)
        exact ⟨m, congrArg (c :: ·) hm⟩
      · exact ih run
    · obtain ⟨m, hm⟩ := ih 0
      exact ⟨m, congrArg (c :: ·) hm⟩

theorem trim_append_feeds (cs : List Char) (n : Nat) :
    trim (· == '\n') (cs ++ List.replicate n '\n') = trim (· == '\n') cs := by
  have hfeeds : (List.replicate n '\n').dropWhile (· == '\n') = [] := by
    simp
  rw [trim, trim, trimStart, trimStart, List.dropWhile_append, hfeeds]
  split
  · rename_i hempty
    rw [List.isEmpty_iff.mp hempty]
  · rw [trimEnd, List.reverse_append, List.reverse_replicate, List.dropWhile_append, hfeeds]
    rfl

/-- **Line feeds at the end** are left out. -/
theorem normalizeChars_feeds_end (cs : List Char) :
    normalizeChars (cs ++ ['\n', '\n']) = normalizeChars cs := by
  obtain ⟨lines, hfeed, hself⟩ := universalNewlines_feed cs
  have hdropped : ∀ n, trim (· == '\n') (squeezeLines 0 (lines ++ List.replicate n '\n')) =
      trim (· == '\n') (squeezeLines 0 lines) := by
    intro n
    obtain ⟨m, hm⟩ := squeezeLines_append_feeds 0 lines n
    rw [hm, trim_append_feeds]
  have htwo : universalNewlines (cs ++ ['\n', '\n']) = lines ++ List.replicate 2 '\n' := hfeed ['\n']
  rw [normalizeChars, normalizeChars, htwo, hdropped 2]
  rcases hself with hself | hself
  · rw [hself]
  · rw [hself]
    exact (hdropped 1).symm

/-- **Line feeds in front** are left out. -/
theorem normalizeChars_feeds_start (cs : List Char) :
    normalizeChars ('\n' :: '\n' :: cs) = normalizeChars cs := by
  have hfeeds : trimStart (· == '\n') (universalNewlines ('\n' :: '\n' :: cs)) =
      trimStart (· == '\n') (universalNewlines cs) := by
    simp [trimStart, universalNewlines]
  rw [normalizeChars_eq, normalizeChars_eq, hfeeds]

/-- After two line feeds, two more are left out. -/
theorem squeezeLines_feeds (run : Nat) (lines cs : List Char) :
    squeezeLines run (lines ++ '\n' :: '\n' :: '\n' :: '\n' :: cs) =
      squeezeLines run (lines ++ '\n' :: '\n' :: cs) := by
  induction lines generalizing run with
  | nil =>
    have hfull : ∀ run, 2 ≤ run → ∀ cs, squeezeLines run ('\n' :: cs) = squeezeLines run cs :=
      fun run hrun cs => by rw [squeezeLines_feed, if_neg (Nat.not_lt.mpr hrun)]
    rcases run with _ | _ | run
    · simp [squeezeLines]
    · simp [squeezeLines]
    · simp only [List.nil_append, hfull (run + 2) (by omega)]
  | cons c lines ih =>
    simp only [List.cons_append, squeezeLines, ih]

/-- **Line feeds after a blank line** are left out. -/
theorem normalizeChars_feeds_between (cs ds : List Char) :
    normalizeChars (cs ++ ['\n', '\n'] ++ '\n' :: '\n' :: ds) =
      normalizeChars (cs ++ ['\n', '\n'] ++ ds) := by
  obtain ⟨lines, hfeed, -⟩ := universalNewlines_feed cs
  simp only [normalizeChars, List.append_assoc, List.cons_append, List.nil_append, hfeed]
  rw [show universalNewlines ('\n' :: ds) = '\n' :: universalNewlines ds by simp [universalNewlines]]
  simp [universalNewlines, squeezeLines_feeds]

/-! ### Paragraphs -/

/-- The text of pieces, with a blank line for what divides paragraphs. -/
def pieceText : Piece → List Char
  | .node d => d.plainText.toList
  | .division => ['\n', '\n']

/-- The text of groups of nodes, with blank lines between them. -/
def groupText (groups : List (List Document)) : List Char :=
  ['\n', '\n'].intercalate (groups.map run)

/-- A group in front of others. -/
theorem groupText_cons (g : List Document) (gs : List (List Document)) :
    groupText (g :: gs) = run g ++ if gs = [] then [] else ['\n', '\n'] ++ groupText gs := by
  cases gs with
  | nil => simp [groupText]
  | cons h gs => simp [groupText, List.intercalate_cons_cons]

/-- **Nodes grouped into paragraphs** keep their text up to its normal form, after any text that
ends in a blank line. The induction is on the pieces; what was put into closed groups stands
in `A`. -/
theorem normalizeChars_groups (hA : A = [] ∨ ∃ cs, A = cs ++ ['\n', '\n']) (g : List Document)
    (ps : List Piece) : normalizeChars (A ++ groupText (groups g ps)) =
      normalizeChars (A ++ run g ++ ps.flatMap pieceText) := by
  induction ps generalizing A g with
  | nil =>
    rw [groups]
    split
    · rename_i hempty
      rw [List.isEmpty_iff.mp hempty]
      simp [groupText, run]
    · simp [groupText]
  | cons p ps ih =>
    cases p with
    | node d =>
      rw [groups, ih hA, run_append]
      simp [pieceText, run]
    | division =>
      rw [groups]
      split
      · rename_i hempty
        rw [List.isEmpty_iff.mp hempty, ih hA]
        rcases hA with rfl | ⟨cs, rfl⟩
        · exact (normalizeChars_feeds_start _).symm
        · simpa [run, pieceText] using (normalizeChars_feeds_between cs (ps.flatMap pieceText)).symm
      · have hrest := ih (A := A ++ run g ++ ['\n', '\n']) (.inr ⟨_, rfl⟩) []
        have htext : A ++ run g ++ (Piece.division :: ps).flatMap pieceText =
            A ++ run g ++ ['\n', '\n'] ++ run [] ++ ps.flatMap pieceText := by
          simp [pieceText, run]
        rw [htext, ← hrest, groupText_cons]
        split
        · rename_i hnil
          have hnone : groupText [] = [] := rfl
          rw [hnil, hnone, List.append_nil, List.append_nil, normalizeChars_feeds_end]
        · simp only [List.append_assoc]

theorem flatMap_intercalate {α β : Type} (f : α → List β) (sep : List α) (xss : List (List α)) :
    (sep.intercalate xss).flatMap f = (sep.flatMap f).intercalate (xss.map (·.flatMap f)) := by
  induction xss with
  | nil => rfl
  | cons xs xss ih =>
    cases xss with
    | nil => simp
    | cons ys xss =>
      rw [List.intercalate_cons_cons, List.flatMap_append, List.flatMap_append, ih]
      exact (List.intercalate_cons_cons ..).symm

/-- A node that is cut at its blank lines has the text of its pieces. -/
theorem pieceText_pieces (d : Document) : (pieces d).flatMap pieceText = d.plainText.toList := by
  unfold pieces
  split
  · rename_i h
    obtain ⟨kind, text, name, value, attributes, children⟩ := d
    obtain rfl : kind = .text := h.1
    have hpiece : ∀ p : List Char, (if p.isEmpty then [] else
        [Piece.node (ofText (String.ofList p))]).flatMap pieceText = p := by
      intro p
      split
      · rename_i hempty
        exact (List.isEmpty_iff.mp hempty).symm
      · simp [pieceText, ofText, @plainText_leaf .text rfl]
    have hcut := flatMap_intercalate pieceText [.division] ((splitBlankLines []
      (node .text text name value attributes children).text.toList).map fun p =>
        if p.isEmpty then [] else [Piece.node (ofText (String.ofList p))])
    rw [List.map_map, Function.comp_def] at hcut
    simp only [hpiece, List.map_id'] at hcut
    exact hcut.trans (intercalate_splitBlankLines [] _)
  · simp [pieceText]

/-- **The paragraphs of a document** have its text, up to the normal form. -/
theorem normalizeChars_paragraphs (ds : List Document) :
    normalizeChars (groupText (ofChildren ds).paragraphs) =
      normalizeChars (ofChildren ds).plainText.toList := by
  have hchildren : (ofChildren ds).children = ds := rfl
  rw [paragraphs, hchildren]
  split
  · rename_i h
    have hall : areParagraphs ds = true := (Bool.and_eq_true_iff.mp h).2
    have htexts : (ds.map children).map run = (plainTexts ds).map String.toList := by
      rw [plainTexts_eq_map, List.map_map, List.map_map]
      refine List.map_congr_left fun d hd => ?_
      obtain ⟨kind, text, name, value, attributes, children⟩ := d
      obtain rfl : kind = .paragraph := eq_of_beq (List.all_eq_true.mp hall _ hd)
      exact (plainText_inner rfl (by simp) text name value attributes children).symm
    rw [groupText, htexts, ofChildren, plainText, if_neg (by decide), if_pos ⟨rfl, hall⟩,
      String.toList_intercalate]
    rfl
  · rename_i h
    have hflat : (ds.flatMap pieces).flatMap pieceText = run ds := by
      rw [List.flatMap_assoc, run]
      exact List.flatMap_congr fun d _ => pieceText_pieces d
    have hgroups := normalizeChars_groups (A := []) (.inl rfl) [] (ds.flatMap pieces)
    rw [hflat] at hgroups
    have hplain : (ofChildren ds).plainText.toList = run ds := by
      cases ds with
      | nil => rfl
      | cons d ds =>
        have hmixed : areParagraphs (d :: ds) = false := by simpa using h
        rw [ofChildren, plainText, if_neg (by decide), if_neg (by simp [hmixed]), join_plainTexts]
    rw [hplain]
    simpa [run] using hgroups

/-! ### Texts in editor values -/

mutual

/-- The texts in an editor value: those of its text nodes, in their order. Other nodes have their
texts among their nodes. -/
def leafTexts : Value → List String
  | .object fields =>
    if (Table.find? fields "object").bind Value.text? = some "text" then
      ((Table.find? fields "text").bind Value.text?).toList
    else leafTextsUnder fields
  | .list vs => leafTextsOf vs
  | _ => []

def leafTextsUnder : List (String × Value) → List String
  | [] => []
  | (k, v) :: fields => (if k = "nodes" then leafTexts v else []) ++ leafTextsUnder fields

def leafTextsOf : List Value → List String
  | [] => []
  | v :: vs => leafTexts v ++ leafTextsOf vs

end

theorem leafTexts_editorText (s : String) : leafTexts (editorText s) = [s] := by
  have hobject : (Table.find? [("object", Value.text "text"), ("text", .text s)] "object").bind
      Value.text? = some "text" := rfl
  rw [editorText, leafTexts, if_pos hobject]
  rfl

/-- **The text that an editor shows**: the texts of each block one after the other, with a blank
line between the blocks, in normal form. -/
def shown (v : Value) : String :=
  let blocks := match (v.get? "document").bind (·.get? "nodes") with
    | some (.list blocks) => blocks
    | _ => []
  normalize ("\n\n".intercalate (blocks.map fun b => String.join (leafTexts b)))

/-! ### Documents without documents inside -/

def NoneInside (ds : List Document) : Prop :=
  ∀ d ∈ nodesOfAll ds, d.kind ≠ .document

theorem noneInside_nil : NoneInside [] :=
  fun _ hd => nomatch hd

theorem nodesOfAll_append (ds es : List Document) :
    nodesOfAll (ds ++ es) = nodesOfAll ds ++ nodesOfAll es := by
  induction ds with
  | nil => rfl
  | cons d ds ih => rw [List.cons_append, nodesOfAll, nodesOfAll, ih, List.append_assoc]

theorem noneInside_append_iff {ds es : List Document} :
    NoneInside (ds ++ es) ↔ NoneInside ds ∧ NoneInside es := by
  rw [NoneInside, nodesOfAll_append]
  exact List.forall_mem_append

theorem noneInside_node_iff {kind : DocumentKind} {text name : Option String} {value : Value}
    {attributes : Table Value} {children : List Document} :
    NoneInside [.node kind text name value attributes children] ↔
      kind ≠ .document ∧ NoneInside children := by
  rw [NoneInside, nodesOfAll, nodes, nodesOfAll, List.append_nil, List.forall_mem_cons]
  rfl

theorem noneInside_cons_iff {d : Document} {ds : List Document} :
    NoneInside (d :: ds) ↔ NoneInside [d] ∧ NoneInside ds :=
  @noneInside_append_iff [d] ds

mutual

/-- **The texts that an editor shows of a node** are its text. -/
theorem join_leafTexts : ∀ d, NoneInside [d] →
    (leafTexts d.editorNode).flatMap String.toList = d.plainText.toList
  | .node kind text name value attributes children, h => by
    obtain ⟨hkind, hchildren⟩ := noneInside_node_iff.mp h
    rw [editorNode]
    split
    · rename_i htext
      subst htext
      have hleaf : DocumentKind.text.isLeaf = true := rfl
      rw [leafTexts_editorText, plainText, if_pos hleaf, List.flatMap_singleton]
    · have hinline : ∀ nodes, leafTexts (.object [("object", .text "inline"), ("type", .text kind.name),
          ("data", .object (editorData kind name value attributes)), ("nodes", nodes)]) =
            leafTexts nodes := by
        intro nodes
        simp [leafTexts, leafTextsUnder, Table.find?, Value.text?]
      rw [hinline, leafTexts]
      split
      · rename_i hleaf
        rw [leafTextsOf, leafTextsOf, leafTexts_editorText, plainText, if_pos hleaf, List.append_nil,
          List.flatMap_singleton]
      · rename_i hleaf
        rw [plainText_inner (by simpa using hleaf) hkind]
        exact join_leafTextsOf children hchildren

theorem join_leafTextsOf : ∀ ds, NoneInside ds →
    (leafTextsOf (editorNodes ds)).flatMap String.toList = run ds
  | [], _ => rfl
  | d :: ds, h => by
    obtain ⟨hd, hds⟩ := noneInside_cons_iff.mp h
    rw [editorNodes, leafTextsOf, List.flatMap_append, join_leafTexts d hd, join_leafTextsOf ds hds]
    rfl

end

theorem noneInside_of_mem {ds : List Document} (h : NoneInside ds) {d : Document} (hd : d ∈ ds) :
    NoneInside [d] := by
  obtain ⟨before, after, rfl⟩ := List.append_of_mem hd
  exact (noneInside_cons_iff.mp (noneInside_append_iff.mp h).2).1

theorem noneInside_iff_forall {ds : List Document} : NoneInside ds ↔ ∀ d ∈ ds, NoneInside [d] := by
  induction ds with
  | nil => simp [noneInside_nil]
  | cons d ds ih => rw [noneInside_cons_iff, ih, List.forall_mem_cons]

/-- A piece of a node is the node itself, or a text. -/
theorem mem_pieces {d x : Document} (h : .node x ∈ pieces d) : x = d ∨ ∃ s, x = ofText s := by
  unfold pieces at h
  split at h
  · rcases mem_intercalate (s := Piece.division) h with h | ⟨piece, hpiece, hx⟩
    · cases h
    · obtain ⟨p, -, rfl⟩ := List.mem_map.mp hpiece
      split at hx
      · cases hx
      · cases List.mem_singleton.mp hx
        exact .inr ⟨_, rfl⟩
  · cases List.mem_singleton.mp h
    exact .inl rfl

/-- The nodes of groups are among the pieces. -/
theorem mem_groups {g : List Document} {ps : List Piece} {d : Document} {group : List Document}
    (hgroup : group ∈ groups g ps) (hd : d ∈ group) : d ∈ g ∨ .node d ∈ ps := by
  induction ps generalizing g with
  | nil =>
    rw [groups] at hgroup
    split at hgroup
    · cases hgroup
    · rw [List.mem_singleton.mp hgroup] at hd
      exact .inl hd
  | cons p ps ih =>
    cases p with
    | node x =>
      rcases ih hgroup with h | h
      · rcases List.mem_append.mp h with h | h
        · exact .inl h
        · rw [List.mem_singleton.mp h]
          exact .inr List.mem_cons_self
      · exact .inr (List.mem_cons_of_mem _ h)
    | division =>
      have hlater : group ∈ groups [] ps → d ∈ g ∨ .node d ∈ Piece.division :: ps := fun h =>
        (ih h).elim (fun h => nomatch h) fun h => .inr (List.mem_cons_of_mem _ h)
      rw [groups] at hgroup
      split at hgroup
      · exact hlater hgroup
      · rcases List.mem_cons.mp hgroup with rfl | hgroup
        · exact .inl hd
        · exact hlater hgroup

/-- What is cut into paragraphs has no document inside. -/
theorem noneInside_paragraphs {ds : List Document} (h : NoneInside ds) :
    ∀ g ∈ (ofChildren ds).paragraphs, NoneInside g := by
  intro g hg
  have hchildren : (ofChildren ds).children = ds := rfl
  rw [paragraphs, hchildren] at hg
  split at hg
  · obtain ⟨⟨kind, text, name, value, attributes, children⟩, hd, rfl⟩ := List.mem_map.mp hg
    exact (noneInside_node_iff.mp (noneInside_of_mem h hd)).2
  · refine noneInside_iff_forall.mpr fun x hx => ?_
    rcases mem_groups hg hx with hx | hx
    · cases hx
    · obtain ⟨d, hd, hx⟩ := List.mem_flatMap.mp hx
      rcases mem_pieces hx with rfl | ⟨s, rfl⟩
      · exact noneInside_of_mem h hd
      · exact noneInside_node_iff.mpr ⟨by simp, noneInside_nil⟩

/-- **The paragraphs of an editor value** have the text of the document. -/
theorem shown_editorValue {ds : List Document} (h : NoneInside ds) :
    shown (ofChildren ds).editorValue = (ofChildren ds).write := by
  have hblock : ∀ g, leafTexts (.object [("object", .text "block"), ("type", .text "paragraph"),
      ("data", .object []), ("nodes", .list (editorNodes g))]) = leafTextsOf (editorNodes g) := by
    intro g
    simp [leafTexts, leafTextsUnder, Table.find?, Value.text?]
  have hblocks : shown (ofChildren ds).editorValue = normalize ("\n\n".intercalate
      ((ofChildren ds).paragraphs.map fun g => String.join (leafTextsOf (editorNodes g)))) := by
    simp only [← hblock]
    exact congrArg (fun texts => normalize ("\n\n".intercalate texts)) List.map_map
  have htexts : ((ofChildren ds).paragraphs.map fun g =>
      String.join (leafTextsOf (editorNodes g))).map String.toList =
        (ofChildren ds).paragraphs.map run := by
    rw [List.map_map]
    refine List.map_congr_left fun g hg => ?_
    rw [Function.comp_apply, String.toList_join]
    exact join_leafTextsOf g (noneInside_paragraphs h g hg)
  rw [hblocks, write, normalize, normalize, String.toList_intercalate, htexts]
  exact congrArg String.ofList (normalizeChars_paragraphs ds)

/-! ### Documents that are made -/

mutual

/-- To leave out quotes changes no kind of a node. -/
theorem noneInside_unquote : ∀ {d d' : Document}, d.unquote = .ok d' → NoneInside [d] →
    NoneInside [d']
  | .node kind text name value attributes children, d', h, hnone => by
    obtain ⟨text', -, h⟩ := Outcome.bind_eq_ok.mp h
    obtain ⟨children', hchildren, h⟩ := Outcome.bind_eq_ok.mp h
    cases h
    obtain ⟨hkind, hnone⟩ := noneInside_node_iff.mp hnone
    exact noneInside_node_iff.mpr ⟨hkind, noneInside_unquoteAll hchildren hnone⟩

theorem noneInside_unquoteAll : ∀ {ds ds' : List Document}, unquoteAll ds = .ok ds' →
    NoneInside ds → NoneInside ds'
  | [], ds', h, hnone => by
    cases h
    exact hnone
  | d :: ds, ds', h, hnone => by
    obtain ⟨d', hd, h⟩ := Outcome.bind_eq_ok.mp h
    obtain ⟨rest, hrest, h⟩ := Outcome.bind_eq_ok.mp h
    cases h
    obtain ⟨hnone, hrestnone⟩ := noneInside_cons_iff.mp hnone
    exact noneInside_cons_iff.mpr
      ⟨noneInside_unquote hd hnone, noneInside_unquoteAll hrest hrestnone⟩

end

theorem exists_of_read (s : String) : ∃ ds, read s = ofChildren ds ∧ NoneInside ds := by
  have hparagraph : ∀ text, NoneInside [paragraphOf text] := fun text =>
    noneInside_node_iff.mpr ⟨by simp, noneInside_node_iff.mpr ⟨by simp, noneInside_nil⟩⟩
  rw [read]
  split
  · exact ⟨[], rfl, noneInside_nil⟩
  · refine ⟨_, rfl, noneInside_iff_forall.mpr fun d hd => ?_⟩
    obtain ⟨p, -, rfl⟩ := List.mem_map.mp hd
    exact hparagraph _

end Document

namespace Drafter

open Document

/-- No document inside another is laid out by one that lays out none. -/
theorem congruent_noneInside : Congruent fun ds es => ds = es ∧ NoneInside ds where
  nil := ⟨rfl, noneInside_nil⟩
  append h := by
    rw [noneInside_append_iff]
    constructor
    · rintro ⟨happend, hds, hds'⟩
      obtain ⟨rfl, rfl⟩ := List.append_inj happend h
      exact ⟨⟨rfl, hds⟩, rfl, hds'⟩
    · rintro ⟨⟨rfl, hds⟩, rfl, hds'⟩
      exact ⟨rfl, hds, hds'⟩
  leaf hleaf _ _ _ _ _ := ⟨rfl, noneInside_node_iff.mpr
    ⟨fun hkind => by simp [hkind, DocumentKind.isLeaf] at hleaf, noneInside_nil⟩⟩
  inner _ hkind _ _ := by
    rw [noneInside_node_iff]
    simp [hkind]

/-- **A drafted document** has no document inside. -/
theorem exists_of_draft {c : Drafter} {nodes : List Markup.Node} {data : Value} {type : SchemaType}
    {d : Document} (h : c.draft nodes data type = .ok d) :
    ∃ ds, d = ofChildren ds ∧ NoneInside ds := by
  obtain ⟨ds, hds, rfl⟩ := Outcome.map_eq_ok.mp h
  rw [← membersBy_boundValue] at hds
  have hvalue : ValuesFollow (fun ds es => ds = es ∧ NoneInside ds) (fun _ => True) c.boundValue
      c.boundValue := by
    intro field format data d ds hds
    refine ⟨ds, hds, rfl, fun _ _ _ => trivial, fun _ => ⟨rfl, ?_⟩⟩
    obtain ⟨p, -, hds⟩ := Outcome.bind_eq_ok.mp hds
    obtain ⟨v, -, hds⟩ := Outcome.bind_eq_ok.mp hds
    obtain ⟨text, -, hds⟩ := Outcome.bind_eq_ok.mp hds
    cases hds
    exact noneInside_node_iff.mpr ⟨by simp, noneInside_nil⟩
  obtain ⟨es, -, -, hrel⟩ := congruent_noneInside.level_follows hvalue nodes data type ds hds
  exact ⟨ds, rfl, (hrel.mpr fun _ _ => trivial).2⟩

end Drafter

namespace Rendering

open Document

/-- **How documents come about**: a text is read, or data is laid out by a template. -/
inductive Made : Document → Prop
  | read (s : String) : Made (Document.read s)
  | drafted {c : Drafter} {nodes data type d} (h : c.draft nodes data type = .ok d) : Made d

/-- **An editor shows the text of a document**: its paragraphs, each of the texts in it and with
blank lines between them, are the document as a text, with or without the quotes of bound texts. -/
theorem shown_slate {d : Document} (h : Made d) (unquote : Bool) :
    (Rendering.slate.render d unquote).map (fun v => Value.text (shown v)) =
      Rendering.markdown.render d unquote := by
  obtain ⟨ds, rfl, hnone⟩ : ∃ ds, d = ofChildren ds ∧ NoneInside ds := by
    cases h with
    | read s => exact exists_of_read s
    | drafted h => exact Drafter.exists_of_draft h
  cases unquote with
  | false => exact congrArg (fun s => Except.ok (Value.text s)) (shown_editorValue hnone)
  | true =>
    rw [render, render, if_pos (by decide), if_pos (by decide), unquote_ofChildren]
    cases hds : unquoteAll ds with
    | error f => rfl
    | ok ds' =>
      exact congrArg (fun s => Except.ok (Value.text s)) (shown_editorValue (noneInside_unquoteAll hds hnone))

end Rendering

namespace Letter

/-- A name, two blank lines and a year. -/
def nodes : List Markup.Node :=
  [.binding "by" none ⟨1, 3⟩, .text ":\n\n\nof " false ⟨1, 7⟩, .formatted "on" "YYYY" ⟨4, 6⟩]

/-- An editor shows the two paragraphs of a letter. -/
theorem shown_slate_letter : ∃ d, drafter.draft nodes data letter = .ok d ∧
    (Rendering.slate.render d true).map (fun v => Value.text (Document.shown v)) =
      .ok (.text "Ann:\n\nof 2024") := by
  have htest : ((drafter.draft nodes data letter).toOption.any fun d =>
      ((Rendering.markdown.render d true).toOption.any fun v =>
        v.text? == some "Ann:\n\nof 2024")) = true := by
    decide +kernel
  obtain ⟨d, hd, htest⟩ := Outcome.exists_of_any htest
  obtain ⟨v, hv, htest⟩ := Outcome.exists_of_any htest
  refine ⟨d, hd, ?_⟩
  rw [Rendering.shown_slate (.drafted hd), hv]
  cases v with
  | text s => rw [Option.some.inj (eq_of_beq htest)]
  | _ => cases htest

end Letter

end Covenant
