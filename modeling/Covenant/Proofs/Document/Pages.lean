import Covenant.Proofs.Document.Paragraphs
import Covenant.Proofs.Document.Tags

/-!
Documents as HTML pages.

* `Html.marks`, `Html.marks_writeAll`: the characters that make tags are those of the tags.
* `Document.page`: the page of a document as a tree; `Document.writeHtml_eq` says that it is what
  is written.
* `Document.bare`: a node without what it says, and `Document.shapes_html`: its tags are those of
  the node.
* `Document.Rendered`: a node of a paragraph, at whatever depth, that is shown.
* `Document.exists_group`, `Document.exists_parts`: where the nodes of a document are shown.
* `Document.writeHtml_safe`: nothing that a document says makes a tag, or ends a value, and it can
  be read back.
-/

namespace Covenant

namespace Html

/-! ### What makes tags -/

/-- The characters that make tags: angle brackets and quotes. -/
def marks (cs : List Char) : List Char :=
  cs.filter fun c => isSpecial c && c != '&'

def Tag.marks (t : Tag) : List Char :=
  '<' :: (t.attributes.flatMap fun _ => ['"', '"']) ++ ['>']

/-- A tag without the names of fields and the style of lists: with its name, the names of its
attributes, and its class. -/
def Tag.shape (t : Tag) : Tag :=
  { t with attributes := t.attributes.map fun a => (a.1, if a.1 = "class" then a.2 else "") }

@[simp] theorem Tag.marks_shape (t : Tag) : t.shape.marks = t.marks := by
  simp [marks, shape, List.flatMap_map]

@[simp] theorem marks_append (cs cs' : List Char) : marks (cs ++ cs') = marks cs ++ marks cs' :=
  List.filter_append ..

/-- A text without special characters has no marks. -/
theorem marks_eq_nil {cs : List Char} (h : ∀ c ∈ cs, isSpecial c = false) : marks cs = [] := by
  refine List.filter_eq_nil_iff.mpr fun c hc => ?_
  rw [h c hc]
  simp

/-- An escaped text has no marks: this is what escaping is for. -/
theorem marks_escape (s : String) : marks (escape s).toList = [] := by
  rw [toList_escape]
  induction s.toList with
  | nil => rfl
  | cons c cs ih =>
    rw [List.flatMap_cons, marks_append, ih, List.append_nil]
    rcases escapeChar_cases c with ⟨hspecial, hc⟩ | ⟨cs, hmem, hc⟩
    · rw [hc]
      exact marks_eq_nil fun x hx => List.mem_singleton.mp hx ▸ hspecial
    · obtain ⟨_, hcs, _⟩ := references_spec _ hmem
      rw [hc, marks_append, show marks ('&' :: cs) = marks cs from rfl, marks_eq_nil hcs]
      rfl

/-- Names have no marks. -/
theorem marks_name {s : String} (h : IsName s) : marks s.toList = [] :=
  marks_eq_nil fun c hc => (h c hc).1

/-- Each attribute contributes the two quotes of its value. -/
theorem marks_writeAttributes {as : List (String × String)} (has : ∀ a ∈ as, IsName a.1) :
    marks (writeAttributes as).toList = as.flatMap fun _ => ['"', '"'] := by
  induction as with
  | nil => rfl
  | cons a as ih =>
    obtain ⟨k, v⟩ := a
    have hkey := marks_name (has _ List.mem_cons_self)
    rw [writeAttributes, List.flatMap_cons, ← ih fun a ha => has a (List.mem_cons_of_mem _ ha)]
    simp only [String.toList_append, marks_append, hkey, marks_escape]
    rfl

@[simp] theorem tags_append (ts us : List Token) : tags (ts ++ us) = tags ts ++ tags us :=
  List.filterMap_append ..

@[simp] theorem characters_append (ts us : List Token) :
    characters (ts ++ us) = characters ts ++ characters us :=
  List.filterMap_append ..

@[simp] theorem tags_tag (t : Tag) (ts : List Token) : tags (.tag t :: ts) = t :: tags ts := rfl

@[simp] theorem characters_tag (t : Tag) (ts : List Token) : characters (.tag t :: ts) = characters ts :=
  rfl

@[simp] theorem tags_map_char (cs : List Char) : tags (cs.map .char) = [] := by
  simp [tags]

@[simp] theorem characters_map_char (cs : List Char) : characters (cs.map .char) = cs := by
  simp [characters]

mutual

/-- **What makes tags** in what is written of a tree makes the tags of the tree. -/
theorem marks_write : ∀ h : Html, Named h →
    marks h.write.toList = (tags (treeTokens h)).flatMap Tag.marks
  | .text s, _ => by simp [write, treeTokens, marks_escape]
  | .lineBreak, _ => rfl
  | .element name attributes children, hnamed => by
    rw [Named] at hnamed
    obtain ⟨hname, hattributes, hchildren⟩ := hnamed
    rw [write, treeTokens]
    simp only [String.toList_append, marks_append, marks_name hname,
      marks_writeAttributes hattributes, marks_writeAll children hchildren, tags_tag, tags_append,
      List.cons_append, List.flatMap_cons, List.flatMap_append]
    simp [marks, Tag.marks, isSpecial, tags]

/-- The marks of a written forest are those of its tags, in order. -/
theorem marks_writeAll : ∀ hs : List Html, NamedAll hs →
    marks (writeAll hs).toList = (tags (treeTokensAll hs)).flatMap Tag.marks
  | [], _ => rfl
  | h :: hs, hnamed => by
    rw [NamedAll] at hnamed
    rw [writeAll, String.toList_append, marks_append, marks_write h hnamed.1,
      marks_writeAll hs hnamed.2, treeTokensAll, tags_append, List.flatMap_append]

end

/-! ### Shapes -/

def shapes (hs : List Html) : List Tag :=
  (tags (treeTokensAll hs)).map Tag.shape

@[simp] theorem shapes_append (hs hs' : List Html) : shapes (hs ++ hs') = shapes hs ++ shapes hs' := by
  simp [shapes]

theorem shapes_cons (h : Html) (hs : List Html) : shapes (h :: hs) = shapes [h] ++ shapes hs :=
  shapes_append [h] hs

/-- An element contributes its opening tag, those of its children and its closing tag. -/
theorem shapes_element (name : String) (attributes : List (String × String)) (children : List Html) :
    shapes [.element name attributes children] =
      Tag.shape ⟨name, attributes⟩ :: shapes children ++ [{ name := "/" ++ name }] := by
  simp [shapes, treeTokensAll, treeTokens, tags, Tag.shape]

/-! ### Lines -/

theorem namedAll_intersperse (hs : List Html) (h : ∀ x ∈ hs, Named x) :
    NamedAll (hs.intersperse .lineBreak) := by
  induction hs with
  | nil => simp [NamedAll]
  | cons x hs ih =>
    have hx := h x List.mem_cons_self
    have hhs := ih fun y hy => h y (List.mem_cons_of_mem _ hy)
    cases hs with
    | nil => exact ⟨hx, trivial⟩
    | cons y hs => exact ⟨hx, trivial, hhs⟩

/-- The lines of a text make well named nodes. -/
theorem namedAll_ofLines (s : String) : NamedAll (ofLines s) := by
  refine namedAll_intersperse _ fun x hx => ?_
  obtain ⟨line, -, rfl⟩ := List.mem_map.mp hx
  trivial

/-- What lines are read as: their characters, and a tag before each line feed. -/
theorem treeTokensAll_ofLines (s : String) : treeTokensAll (ofLines s) =
    s.toList.flatMap fun c => if c = '\n' then [.tag { name := "br/" }, .char '\n'] else [.char c] := by
  rw [ofLines]
  induction s.toList with
  | nil => rfl
  | cons c cs ih =>
    obtain ⟨piece, pieces, hsplit, hcons⟩ := Text.splitAt_cons '\n' c cs
    rw [List.flatMap_cons, ← ih, hcons, hsplit]
    by_cases hc : c = '\n'
    · rw [if_pos hc, if_pos hc]
      simp [treeTokensAll, treeTokens]
    · rw [if_neg hc, if_neg hc]
      cases pieces <;> simp [treeTokensAll, treeTokens]

/-- **Lines are read as the text**, line feeds included. -/
theorem characters_ofLines (s : String) : characters (treeTokensAll (ofLines s)) = s.toList := by
  rw [treeTokensAll_ofLines]
  induction s.toList with
  | nil => rfl
  | cons c cs ih =>
    rw [List.flatMap_cons, characters_append, ih]
    split
    · rename_i hc
      rw [hc]
      rfl
    · rfl

def lineFeeds (s : String) : String :=
  String.ofList (s.toList.filter (· == '\n'))

/-- The tags of lines are those of their line feeds. -/
theorem shapes_ofLines (s : String) : shapes (ofLines s) = shapes (ofLines (lineFeeds s)) := by
  rw [shapes, shapes, treeTokensAll_ofLines, treeTokensAll_ofLines, lineFeeds, String.toList_ofList]
  congr 1
  induction s.toList with
  | nil => rfl
  | cons c cs ih =>
    rw [List.flatMap_cons, tags_append, ih]
    by_cases hc : c = '\n'
    · subst hc
      simp [tags]
    · simp [hc, tags]

/-! ### Frames -/

/-- The frame of a page, around what it shows. -/
def frame (hs : List Html) : Html :=
  .element "html" [] [.text "\n", .element "body" [] [.text "\n",
    .element "div" [("class", "document")] (.text "\n" :: hs ++ [.text "\n"]), .text "\n"],
    .text "\n"]

/-- How a frame is written. -/
theorem toList_write_frame (hs : List Html) : (write (frame hs)).toList =
    ("<html>\n<body>\n<div class=\"document\">\n").toList ++ (writeAll hs).toList ++
      ("\n</div>\n</body>\n</html>").toList := by
  have hfeed : escape "\n" = "\n" := escape_of_plain (by simp [isSpecial])
  have hclass : escape "document" = "document" := escape_of_plain (by simp [isSpecial])
  simp only [frame, write, writeAll, writeAll_append, writeAttributes, hfeed, hclass,
    List.cons_append, String.toList_append]
  generalize (writeAll hs).toList = cs
  simp

/-- The paragraphs of a page, with the line feeds that stand around each of them. -/
def spaced (ps : List Html) : List Html :=
  ps.flatMap fun p => [.text "\n", p, .text "\n"]

theorem join_write_eq (ps : List Html) :
    String.join (ps.map fun p => "\n" ++ p.write ++ "\n") = writeAll (spaced ps) := by
  have hfeed : escape "\n" = "\n" := escape_of_plain (by simp [isSpecial])
  induction ps with
  | nil => rfl
  | cons p ps ih =>
    rw [List.map_cons, String.join_cons, ih, spaced, spaced, List.flatMap_cons, writeAll_append]
    simp [writeAll, write, hfeed, String.append_assoc]

/-- The page around the paragraphs has fixed tags. -/
theorem shapes_frame (hs : List Html) : shapes [frame hs] =
    [{ name := "html" }, { name := "body" }, ⟨"div", [("class", "document")]⟩] ++ shapes hs ++
      [{ name := "/div" }, { name := "/body" }, { name := "/html" }] := by
  have hfeed : tags (treeTokens (.text "\n")) = [] := rfl
  simp [shapes, frame, treeTokensAll, treeTokens.eq_3, hfeed, Tag.shape, tags_tag]
  simp [tags]

/-- Blank lines between paragraphs add no tag. -/
theorem shapes_spaced (hs : List Html) : shapes (spaced hs) = shapes hs := by
  have htext : shapes [.text "\n"] = [] := rfl
  induction hs with
  | nil => rfl
  | cons h hs ih =>
    rw [spaced, List.flatMap_cons, shapes_append, shapes_cons (.text "\n"), shapes_cons h [_], htext,
      shapes_cons h hs, ← ih, spaced]
    simp

end Html

namespace Document

/-! ### Pages -/

def page (d : Document) : Html :=
  Html.frame (Html.spaced d.htmlParagraphs)

/-- **What is written is the page.** -/
theorem writeHtml_eq (d : Document) : d.writeHtml = d.page.write := by
  apply String.toList_injective
  refine Eq.trans ?_ (Html.toList_write_frame _).symm
  rw [← Html.join_write_eq, ← String.toList_append, ← String.toList_append]
  rfl

/-! ### Nodes -/

theorem htmlAll_append (ds es : List Document) : htmlAll (ds ++ es) = htmlAll ds ++ htmlAll es := by
  induction ds with
  | nil => rfl
  | cons d ds ih => rw [List.cons_append, htmlAll, htmlAll, ih, List.append_assoc]

/-- Each item of a list is one span. -/
theorem htmlItems_eq_map (ds : List Document) : htmlItems ds =
    ds.map fun d => .element "span" [("class", "list-item")] (htmlAll d.children) := by
  induction ds with
  | nil => rfl
  | cons d ds ih =>
    obtain ⟨kind, text, name, value, attributes, children⟩ := d
    rw [htmlItems, ih]
    rfl

/-- The names of elements and attributes that are written. -/
theorem isNames : Html.IsName "span" ∧ Html.IsName "div" ∧ Html.IsName "p" ∧ Html.IsName "html" ∧
    Html.IsName "body" ∧ Html.IsName "class" ∧ Html.IsName "data-name" ∧
    Html.IsName "data-list-type" := by
  simp [Html.IsName, Html.isSpecial]

mutual

/-- The elements of a node have names. -/
theorem namedAll_html : ∀ d : Document, Html.NamedAll d.html
  | .node kind text name value attributes children => by
    obtain ⟨hspan, hdiv, -, -, -, hclass, hname, htype⟩ := isNames
    have hchildren := namedAll_htmlAll children
    have hitems := namedAll_htmlItems children
    have hlines := Html.namedAll_ofLines (text.getD "")
    cases kind <;>
      simp [html, Html.NamedAll, Html.Named, hspan, hdiv, hclass, hname, htype, hchildren, hitems,
        hlines]

/-- Every node of a document is shown under well formed names. -/
theorem namedAll_htmlAll : ∀ ds : List Document, Html.NamedAll (htmlAll ds)
  | [] => trivial
  | d :: ds => by
    rw [htmlAll, Html.namedAll_append]
    exact ⟨namedAll_html d, namedAll_htmlAll ds⟩

theorem namedAll_htmlItems : ∀ ds : List Document, Html.NamedAll (htmlItems ds)
  | [] => trivial
  | .node _ _ _ _ _ children :: ds => by
    obtain ⟨hspan, -, -, -, -, hclass, -⟩ := isNames
    rw [htmlItems, Html.NamedAll, Html.Named]
    exact ⟨⟨hspan, by simpa using hclass, namedAll_htmlAll children⟩, namedAll_htmlItems ds⟩

end

/-- The page as a whole is well named. -/
theorem named_page (d : Document) : Html.Named d.page := by
  obtain ⟨-, hdiv, hp, hhtml, hbody, hclass, -⟩ := isNames
  have hparagraphs : ∀ gs : List (List Document), Html.NamedAll
      (Html.spaced (gs.map fun g => .element "p" [] (htmlAll g))) := by
    intro gs
    induction gs with
    | nil => trivial
    | cons g gs ih =>
      rw [List.map_cons, Html.spaced, List.flatMap_cons, Html.namedAll_append]
      exact ⟨⟨trivial, ⟨hp, by simp, namedAll_htmlAll g⟩, trivial, trivial⟩, ih⟩
  have hall := hparagraphs d.paragraphs
  rw [page, htmlParagraphs]
  simp [Html.frame, Html.Named, Html.NamedAll, hdiv, hhtml, hbody, hclass, hall]

/-! ### What tags depend on -/

mutual

/-- A node without what it says: its kind, the line feeds of its text where they are shown, and its
children. -/
def bare : Document → Document
  | .node kind text _ _ _ children =>
    .node kind (if kind = .text ∨ kind = .variable ∨ kind = .conditional
      then some (Html.lineFeeds (text.getD "")) else none) none .null [] (bareAll children)

def bareAll : List Document → List Document
  | [] => []
  | d :: ds => d.bare :: bareAll ds

end

theorem bareAll_eq_map (ds : List Document) : bareAll ds = ds.map bare := by
  induction ds with
  | nil => rfl
  | cons d ds ih => rw [bareAll, ih, List.map_cons]

mutual

/-- **The tags of a node are those of the node without what it says.** -/
theorem shapes_html : ∀ d : Document, Html.shapes d.html = Html.shapes d.bare.html
  | .node kind text name value attributes children => by
    have hchildren := shapes_htmlAll children
    have hitems := shapes_htmlItems children
    have hlines := Html.shapes_ofLines (text.getD "")
    have htext : ∀ s, Html.shapes [.text s] = [] := fun s => by
      simp [Html.shapes, Html.treeTokensAll, Html.treeTokens]
    cases kind <;>
      simp [bare, html, Html.shapes_element, Html.Tag.shape, hlines, hchildren, hitems, htext]

/-- The tags of a document do not depend on the texts it shows. -/
theorem shapes_htmlAll : ∀ ds : List Document,
    Html.shapes (htmlAll ds) = Html.shapes (htmlAll (bareAll ds))
  | [] => rfl
  | d :: ds => by
    rw [htmlAll, bareAll, htmlAll, Html.shapes_append, Html.shapes_append, shapes_html d,
      shapes_htmlAll ds]

theorem shapes_htmlItems : ∀ ds : List Document,
    Html.shapes (htmlItems ds) = Html.shapes (htmlItems (bareAll ds))
  | [] => rfl
  | .node _ _ _ _ _ children :: ds => by
    rw [htmlItems, bareAll, bare, htmlItems, Html.shapes_cons, Html.shapes_element,
      Html.shapes_cons (.element _ _ _), Html.shapes_element, shapes_htmlAll children,
      shapes_htmlItems ds]

end

/-- **The tags of a page** depend on its paragraphs without what they say. -/
theorem shapes_page {d d' : Document}
    (h : d.paragraphs.map (·.map bare) = d'.paragraphs.map (·.map bare)) :
    Html.shapes [d.page] = Html.shapes [d'.page] := by
  have hgroups : ∀ gs : List (List Document),
      Html.shapes (gs.map fun g => .element "p" [] (htmlAll g)) =
        (gs.map (·.map bare)).flatMap fun g =>
          { name := "p" } :: Html.shapes (htmlAll g) ++ [{ name := "/p" }] := by
    intro gs
    induction gs with
    | nil => rfl
    | cons g gs ih =>
      rw [List.map_cons, Html.shapes_cons, Html.shapes_element, ih, List.map_cons, List.flatMap_cons,
        shapes_htmlAll, bareAll_eq_map]
      rfl
  rw [page, page, Html.shapes_frame, Html.shapes_frame, Html.shapes_spaced, Html.shapes_spaced,
    htmlParagraphs, htmlParagraphs, hgroups, hgroups, h]

/-! ### Nodes that are shown -/

/-- A node that is shown where nodes are: one of them, or shown in a clause or an item of a list
among them. -/
inductive Rendered (n : Document) : List Document → Prop where
  | here {ds : List Document} (h : n ∈ ds) : Rendered n ds
  | block {ds : List Document} {d : Document} (hd : d ∈ ds)
      (hkind : d.kind = .clause ∨ d.kind = .within) (h : Rendered n d.children) : Rendered n ds
  | item {ds : List Document} {d e : Document} (hd : d ∈ ds) (hkind : d.kind = .list)
      (he : e ∈ d.children) (h : Rendered n e.children) : Rendered n ds

/-- What is shown of one of several nodes is shown of them. -/
theorem within_htmlAll {ds : List Document} {d : Document} (hd : d ∈ ds) {part : List Html}
    (h : Html.Within part d.html) : Html.Within part (htmlAll ds) := by
  obtain ⟨before, after, rfl⟩ := List.append_of_mem hd
  rw [← List.singleton_append, ← List.append_assoc, htmlAll_append, htmlAll_append]
  have hone : htmlAll [d] = d.html := by rw [htmlAll, htmlAll, List.append_nil]
  exact hone ▸ h.append _ _

/-- **A node that is shown** stands in what is written. -/
theorem Rendered.within {n : Document} {ds : List Document} (h : Rendered n ds) :
    Html.Within n.html (htmlAll ds) := by
  induction h with
  | here h => exact within_htmlAll h (.refl _)
  | @block ds d hd hkind _ ih =>
    refine within_htmlAll hd ?_
    obtain ⟨kind, text, name, value, attributes, children⟩ := d
    rcases hkind with rfl | rfl <;> exact .inside [] [] _ _ ih
  | @item ds d e hd hkind he _ ih =>
    refine within_htmlAll hd ?_
    obtain ⟨kind, text, name, value, attributes, children⟩ := d
    obtain rfl : kind = .list := hkind
    obtain ⟨before, after, rfl⟩ := List.append_of_mem (show e ∈ children from he)
    refine .inside [] [] _ _ ?_
    rw [htmlItems_eq_map, List.map_append, List.map_cons]
    exact .inside _ _ _ _ ih

/-- What is shown in a paragraph is shown in the page. -/
theorem within_page {d : Document} {group : List Document} (hgroup : group ∈ d.paragraphs)
    {part : List Html} (h : Html.Within part (htmlAll group)) : Html.Within part [d.page] := by
  obtain ⟨before, after, hparagraphs⟩ := List.append_of_mem hgroup
  have hspaced : Html.Within part (Html.spaced d.htmlParagraphs) := by
    rw [htmlParagraphs, hparagraphs, List.map_append, List.map_cons, Html.spaced,
      List.flatMap_append, List.flatMap_cons]
    have hparagraph := Html.Within.inside [.text "\n"] [.text "\n"] "p" [] h
    simpa [Html.spaced] using hparagraph.append (Html.spaced (before.map fun g => .element "p" [] (htmlAll g)))
      (Html.spaced (after.map fun g => .element "p" [] (htmlAll g)))
  have hdiv := hspaced.append [.text "\n"] [.text "\n"]
  exact .inside [] [] _ _ (.inside [.text "\n"] [.text "\n"] _ _
    (.inside [.text "\n"] [.text "\n"] _ _ hdiv))

/-- **What is written of a text** is read as the text. -/
theorem characters_html {n : Document} {t : String} (hleaf : n.kind.isLeaf = true)
    (htext : n.text? = some t) : Html.characters (Html.treeTokensAll n.html) = t.toList := by
  obtain ⟨kind, text, name, value, attributes, children⟩ := n
  obtain rfl : text = some t := htext
  have hlines := Html.characters_ofLines t
  have hend : ∀ name, Html.characters [.tag { name }] = [] := fun _ => rfl
  cases kind
  all_goals first
    | exact absurd hleaf Bool.false_ne_true
    | simp [html, Html.treeTokensAll, Html.treeTokens, hlines, hend]

/-- The kinds of nodes that show the name of a field. -/
def showsName (kind : DocumentKind) : Bool :=
  kind == .variable || kind == .conditional || kind == .clause || kind == .within || kind == .list

/-- **The name of a field** is read as the value of an attribute. -/
theorem name_html {n : Document} {name : String} (hkind : showsName n.kind = true)
    (hname : n.name? = some name) : ∃ t ts, Html.tags (Html.treeTokensAll n.html) = t :: ts ∧
      ("data-name", name) ∈ t.attributes := by
  obtain ⟨kind, text, name', value, attributes, children⟩ := n
  obtain rfl : name' = some name := hname
  cases kind
  all_goals first
    | exact absurd hkind Bool.false_ne_true
    | simp [html, Html.treeTokensAll, Html.treeTokens]

/-! ### Paragraphs -/

/-- Every node that is not divided is in a group. -/
theorem exists_group {ps : List Piece} {group : List Document} {x : Document}
    (h : x ∈ group ∨ .node x ∈ ps) : ∃ g ∈ groups group ps, x ∈ g := by
  induction ps generalizing group with
  | nil =>
    have hx : x ∈ group := h.resolve_right List.not_mem_nil
    have hne : group.isEmpty = false := List.isEmpty_eq_false_iff.mpr (List.ne_nil_of_mem hx)
    exact ⟨group, by simp [groups, hne], hx⟩
  | cons p ps ih =>
    cases p with
    | node d =>
      refine ih ?_
      rcases h with h | h
      · exact .inl (List.mem_append_left _ h)
      · rcases List.mem_cons.mp h with h | h
        · cases h
          exact .inl (List.mem_append_right _ (List.mem_singleton_self _))
        · exact .inr h
    | division =>
      rw [groups]
      rcases h with h | h
      · have hne : group.isEmpty = false := List.isEmpty_eq_false_iff.mpr (List.ne_nil_of_mem h)
        rw [hne]
        exact ⟨group, List.mem_cons_self, h⟩
      · have hlater : Piece.node x ∈ ps := by simpa using h
        obtain ⟨g, hg, hx⟩ := @ih [] (.inr hlater)
        split
        · exact ⟨g, hg, hx⟩
        · exact ⟨g, List.mem_cons_of_mem _ hg, hx⟩

theorem mem_intersperse_of_mem {α : Type} {x sep : α} {xs : List α} (h : x ∈ xs) :
    x ∈ xs.intersperse sep := by
  induction xs with
  | nil => cases h
  | cons y xs ih =>
    cases xs with
    | nil => exact h
    | cons z xs =>
      rw [List.intersperse_cons_cons]
      rcases List.mem_cons.mp h with rfl | h
      · exact List.mem_cons_self
      · exact List.mem_cons_of_mem _ (List.mem_cons_of_mem _ (ih h))

/-- The nodes that paragraphs are made of: the children of the paragraphs of a document, or those of
the document if it has others. -/
def inlines (d : Document) : List Document :=
  if !d.children.isEmpty && areParagraphs d.children then d.children.flatMap children
  else d.children

/-- A text that is cut at its blank lines is divided into its pieces, but for the empty ones. -/
theorem exists_pieces {n : Document}
    (hcut : n.kind = .text ∧ Text.contains ['\n', '\n'] n.text.toList = true) :
    ∃ parts : List String, "\n\n".intercalate parts = n.text ∧
      ∀ part ∈ parts, part ≠ "" → .node (ofText part) ∈ pieces n := by
  refine ⟨(splitBlankLines [] n.text.toList).map String.ofList, ?_, fun part hpart hne => ?_⟩
  · apply String.toList_injective
    have htext := intercalate_splitBlankLines [] n.text.toList
    rw [String.toList_intercalate, List.map_map]
    simpa [Function.comp_def] using htext
  · obtain ⟨p, hp, rfl⟩ := List.mem_map.mp hpart
    have hp' : p.isEmpty = false := by
      rw [List.isEmpty_eq_false_iff]
      rintro rfl
      exact hne rfl
    rw [pieces, if_pos hcut]
    refine List.mem_flatten.mpr ⟨[.node (ofText (String.ofList p))],
      mem_intersperse_of_mem (List.mem_map.mpr ⟨p, hp, ?_⟩), List.mem_singleton_self _⟩
    rw [hp', if_neg Bool.false_ne_true]

/-- **Every node is in a paragraph**, unless it is a text that is cut at its blank lines. Then its
pieces are, those which are not empty, and with the blank lines between them they are the text. -/
theorem exists_parts {d n : Document} (hn : n ∈ d.inlines) :
    (∃ group ∈ d.paragraphs, n ∈ group) ∨
    n.kind = .text ∧ Text.contains ['\n', '\n'] n.text.toList = true ∧
      ∃ parts : List String, "\n\n".intercalate parts = n.text ∧
        ∀ part ∈ parts, part ≠ "" → ∃ group ∈ d.paragraphs, ofText part ∈ group := by
  unfold inlines at hn
  split at hn
  · rename_i hparagraphs
    obtain ⟨p, hp, hn⟩ := List.mem_flatMap.mp hn
    refine .inl ⟨p.children, ?_, hn⟩
    rw [paragraphs, if_pos hparagraphs]
    exact List.mem_map_of_mem hp
  · rename_i hother
    have hpieces : ∀ {x}, .node x ∈ pieces n → ∃ group ∈ d.paragraphs, x ∈ group := by
      intro x hx
      rw [paragraphs, if_neg hother]
      exact exists_group (.inr (List.mem_flatMap.mpr ⟨n, hn, hx⟩))
    by_cases hcut : n.kind = .text ∧ Text.contains ['\n', '\n'] n.text.toList = true
    · obtain ⟨parts, htext, hparts⟩ := exists_pieces hcut
      exact .inr ⟨hcut.1, hcut.2, parts, htext, fun part h hne => hpieces (hparts part h hne)⟩
    · refine .inl (hpieces ?_)
      rw [pieces, if_neg hcut]
      exact List.mem_singleton_self _

/-! ### Safety -/

/-- Read back, the written page is the tree it was written from. -/
theorem tokens_writeHtml (d : Document) :
    Html.tokens d.writeHtml.toList = Html.treeTokens d.page := by
  rw [writeHtml_eq]
  exact (Html.reads_write _ (named_page d)).tokens_eq

/-- The tags read back from a page, without attribute values, are its shapes. -/
theorem shapes_tags_page (d : Document) :
    (Html.tags (Html.treeTokens d.page)).map Html.Tag.shape = Html.shapes [d.page] := by
  rw [Html.shapes, Html.treeTokensAll, Html.treeTokensAll, List.append_nil]

/-- The characters that make tags come from the shapes of the tags. -/
theorem marks_writeHtml (d : Document) :
    Html.marks d.writeHtml.toList = (Html.shapes [d.page]).flatMap Html.Tag.marks := by
  rw [writeHtml_eq, Html.marks_write _ (named_page d), ← shapes_tags_page, List.flatMap_map]
  exact List.flatMap_congr fun t _ => t.marks_shape.symm

/-- **A node that is shown** stands in the page in one piece, which is read by itself. -/
theorem Rendered.exists_written {d n : Document} {group : List Document}
    (hgroup : group ∈ d.paragraphs) (hn : Rendered n group) : ∃ before after,
      d.writeHtml.toList = before ++ (Html.writeAll n.html).toList ++ after ∧
      Html.tokens d.writeHtml.toList =
        Html.tokens before ++ Html.treeTokensAll n.html ++ Html.tokens after ∧
      Html.tokens (Html.writeAll n.html).toList = Html.treeTokensAll n.html := by
  obtain ⟨before, after, ts, us, hwrite, hts, hus, hpart⟩ :=
    (within_page hgroup hn.within).exists_reads ⟨named_page d, trivial⟩
  have hreads := Html.reads_writeAll _ hpart
  have hpage : d.writeHtml.toList = before ++ (Html.writeAll n.html).toList ++ after := by
    rw [writeHtml_eq, ← hwrite, Html.writeAll, Html.writeAll, String.append_empty]
  refine ⟨before, after, hpage, ?_, hreads.tokens_eq⟩
  rw [hpage, ((hts.append hreads).append hus).tokens_eq, hts.tokens_eq, hus.tokens_eq]

/-- **Nothing that a document says gets into the structure of its page.** No character that has a
meaning stands anywhere without it, and the characters that make tags, and the tags, with their
classes and the names of their attributes, are the same for documents with the same paragraphs of
nodes of the same kinds and with as many line feeds. What a page says of a node that it shows can be
read back: the text of a leaf from the characters between tags, and the name of a field from an
attribute. It shows all nodes of its paragraphs, but for texts that are cut at their blank lines: of
these it shows the pieces, which with the blank lines between them are the text. -/
theorem writeHtml_safe (d : Document) :
    (∀ c, .stray c ∉ Html.tokens d.writeHtml.toList) ∧
    (∀ d' : Document, d.paragraphs.map (·.map bare) = d'.paragraphs.map (·.map bare) →
      Html.marks d.writeHtml.toList = Html.marks d'.writeHtml.toList ∧
      (Html.tags (Html.tokens d.writeHtml.toList)).map Html.Tag.shape =
        (Html.tags (Html.tokens d'.writeHtml.toList)).map Html.Tag.shape) ∧
    (∀ group ∈ d.paragraphs, ∀ n, Rendered n group → ∃ before written after,
      d.writeHtml.toList = before ++ written ++ after ∧ written = (Html.writeAll n.html).toList ∧
      Html.tokens d.writeHtml.toList =
        Html.tokens before ++ Html.tokens written ++ Html.tokens after ∧
      (∀ t, n.kind.isLeaf = true → n.text? = some t →
        Html.characters (Html.tokens written) = t.toList) ∧
      ∀ name, showsName n.kind = true → n.name? = some name →
        ∃ t ts, Html.tags (Html.tokens written) = t :: ts ∧ ("data-name", name) ∈ t.attributes) ∧
    ∀ n ∈ d.inlines, (∃ group ∈ d.paragraphs, n ∈ group) ∨
      n.kind = .text ∧ Text.contains ['\n', '\n'] n.text.toList = true ∧
        ∃ parts : List String, "\n\n".intercalate parts = n.text ∧
          ∀ part ∈ parts, part ≠ "" → ∃ group ∈ d.paragraphs, ofText part ∈ group := by
  refine ⟨fun c => ?_, fun d' h => ?_, fun group hgroup n hn => ?_, fun n hn => exists_parts hn⟩
  · rw [tokens_writeHtml]
    exact Html.stray_not_mem_treeTokens c _
  · rw [marks_writeHtml, marks_writeHtml, tokens_writeHtml, tokens_writeHtml, shapes_tags_page,
      shapes_tags_page, shapes_page h]
    exact ⟨rfl, rfl⟩
  · obtain ⟨before, after, hpage, htokens, hwritten⟩ := hn.exists_written hgroup
    refine ⟨before, _, after, hpage, rfl, ?_, fun t hleaf ht => ?_, fun name hkind hname => ?_⟩
    · rw [htokens, hwritten]
    · rw [hwritten, characters_html hleaf ht]
    · rw [hwritten]
      exact name_html hkind hname

/-- A value that would make tags, of a field that would end an attribute. -/
def hostile : Document :=
  .node .variable (some "<b>Ann & \"Bo\"\n</b>") (some "by\"><i x='") .null [] []

/-- **The page of a hostile value** has the tags of any other value of two lines, and shows it. -/
theorem writeHtml_hostile : (∀ c, .stray c ∉ Html.tokens (ofChildren [hostile]).writeHtml.toList) ∧
    (Html.tags (Html.tokens (ofChildren [hostile]).writeHtml.toList)).map Html.Tag.shape =
      (Html.tags (Html.tokens (ofChildren [.node .variable (some "Ann\nBo") (some "by") .null [] []]
        ).writeHtml.toList)).map Html.Tag.shape ∧
    ∃ before written after, (ofChildren [hostile]).writeHtml.toList = before ++ written ++ after ∧
      Html.characters (Html.tokens written) = ("<b>Ann & \"Bo\"\n</b>").toList ∧
      ∃ t ts, Html.tags (Html.tokens written) = t :: ts ∧
        ("data-name", "by\"><i x='") ∈ t.attributes := by
  have hparagraphs : (ofChildren [hostile]).paragraphs = [[hostile]] := rfl
  obtain ⟨hstray, htags, hshown, -⟩ := writeHtml_safe (ofChildren [hostile])
  have hbare : hostile.bare =
      (node .variable (some "Ann\nBo") (some "by") .null [] []).bare := by
    simp [hostile, bare, Html.lineFeeds]
  refine ⟨hstray, (htags (ofChildren [.node .variable (some "Ann\nBo") (some "by") .null [] []]) ?_).2,
    ?_⟩
  · exact congrArg (fun d => [[d]]) hbare
  · obtain ⟨before, written, after, hpage, -, -, htext, hname⟩ :=
      hshown [hostile] (by simp [hparagraphs]) hostile (.here (List.mem_singleton_self _))
    exact ⟨before, written, after, hpage, htext _ rfl rfl, hname _ rfl rfl⟩

/-- **Not every text is shown whole**: of blank lines that follow each other in a text which is cut
there, the page shows one. -/
theorem not_shown_whole : ∃ d n : Document, n ∈ d.inlines ∧ n.kind = .text ∧
    n.text? = some "one\n\n\n\ntwo" ∧
    ¬ n.text.toList <:+: Html.characters (Html.tokens d.writeHtml.toList) := by
  refine ⟨ofChildren [ofText "one\n\n\n\ntwo"], ofText "one\n\n\n\ntwo", ?_, rfl, rfl, ?_⟩
  · exact List.mem_singleton_self _
  · decide +kernel

end Document

end Covenant
