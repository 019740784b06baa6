import Covenant.Document.Basic

/-!
Documents as HTML.

The HTML of a document is a tree of elements, line breaks and texts. Only the tree is
turned into text, and there every text and every attribute is escaped.
-/

namespace Covenant

/-- A piece of HTML. -/
inductive Html where
  | text (s : String)
  | lineBreak
  | element (tag : String) (attributes : List (String × String)) (children : List Html)
deriving Inhabited

namespace Html

def escapeChar : Char → String
  | '&' => "&amp;"
  | '<' => "&lt;"
  | '>' => "&gt;"
  | '\'' => "&#39;"
  | '"' => "&#34;"
  | c => toString c

def escape (s : String) : String :=
  String.join (s.toList.map escapeChar)

/-- The attributes of an element as they are written. -/
def writeAttributes : List (String × String) → String
  | [] => ""
  | (k, v) :: as => " " ++ k ++ "=\"" ++ escape v ++ "\"" ++ writeAttributes as

mutual

def write : Html → String
  | .text s => escape s
  | .lineBreak => "<br/>\n"
  | .element tag attributes children =>
    "<" ++ tag ++ writeAttributes attributes ++ ">" ++ writeAll children ++ "</" ++ tag ++ ">"

def writeAll : List Html → String
  | [] => ""
  | h :: hs => h.write ++ writeAll hs

end

def ofLines (s : String) : List Html :=
  ((Text.splitAt '\n' s.toList).map fun line => Html.text (String.ofList line)).intersperse
    .lineBreak

end Html

namespace Document

/-- An attribute as it is shown: nothing if it is not there. -/
def attributeText (attributes : Table Value) (key : String) : String :=
  ((attributes.find? key).map Value.plain).getD ""

mutual

/-- The HTML of a node. Nodes that cannot stand inside a paragraph have none. -/
def html : Document → List Html
  | .node kind text name _ attributes children =>
    let named : String × String := ("data-name", name.getD "None")
    match kind with
    | .text => Html.ofLines (text.getD "")
    | .variable | .conditional =>
      [.element "span" [("class", kind.name), named] (Html.ofLines (text.getD ""))]
    | .formula => [.element "span" [("class", "formula")] [.text (text.getD "None")]]
    | .clause | .within => [.element "div" [("class", kind.name), named] (htmlAll children)]
    | .list =>
      [.element "span" [("class", "list"), named,
        ("data-list-type", attributeText attributes "list_type")] (htmlItems children)]
    | .document | .paragraph | .listItem => []

def htmlAll : List Document → List Html
  | [] => []
  | d :: ds => d.html ++ htmlAll ds

def htmlItems : List Document → List Html
  | [] => []
  | .node _ _ _ _ _ children :: ds =>
    .element "span" [("class", "list-item")] (htmlAll children) :: htmlItems ds

end

def htmlParagraphs (d : Document) : List Html :=
  d.paragraphs.map fun p => .element "p" [] (htmlAll p)

def writeHtml (d : Document) : String :=
  "<html>\n<body>\n<div class=\"document\">\n"
    ++ String.join (d.htmlParagraphs.map fun p => "\n" ++ p.write ++ "\n")
    ++ "\n</div>\n</body>\n</html>"

end Document

end Covenant
