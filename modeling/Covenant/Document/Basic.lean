import Covenant.Fault

/-!
Documents.

A document is a tree of nodes. Its leaves carry text: plain text, the text of a bound
value, a text that depends on a truth value, or an expression. Inner nodes are
paragraphs, clauses, lists and the like. A text is read as a document of paragraphs,
which blank lines divide, and written back in normal form: no carriage returns, no two
blank lines in a row, and no line feeds at either end.
-/

namespace Covenant

/-- The kinds of nodes. -/
inductive DocumentKind where
  | document
  | paragraph
  | text
  | variable
  | conditional
  | clause
  | within
  | list
  | listItem
  | formula
deriving DecidableEq, Repr, Inhabited

namespace DocumentKind

def names : List (String × DocumentKind) :=
  [("document", .document), ("paragraph", .paragraph), ("text", .text), ("variable", .variable),
    ("conditional", .conditional), ("clause", .clause), ("with", .within), ("list", .list),
    ("list_item", .listItem), ("formula", .formula)]

def name (k : DocumentKind) : String :=
  ((names.find? fun e => e.2 == k).map Prod.fst).getD ""

/-- Whether nodes of a kind carry text of their own. -/
def isLeaf : DocumentKind → Bool
  | .text | .variable | .conditional | .formula => true
  | _ => false

end DocumentKind

/-- A node of a document: its text if it is a leaf, the field it shows and the value of
that, further attributes, and its children. -/
inductive Document where
  | node (kind : DocumentKind) (text name : Option String) (value : Value)
      (attributes : Table Value) (children : List Document)
deriving Inhabited

namespace Document

/-! ### Parts -/

def kind : Document → DocumentKind
  | .node kind .. => kind

/-- The text of a node, if it has one. -/
def text? : Document → Option String
  | .node _ text .. => text

/-- The text of a node, empty if it has none. -/
def text (d : Document) : String :=
  d.text?.getD ""

def name? : Document → Option String
  | .node _ _ name .. => name

def value : Document → Value
  | .node _ _ _ value .. => value

def attributes : Document → Table Value
  | .node _ _ _ _ attributes _ => attributes

def children : Document → List Document
  | .node _ _ _ _ _ children => children

def ofChildren (children : List Document) : Document :=
  .node .document none none .null [] children

def ofText (text : String) : Document :=
  .node .text (some text) none .null [] []

def paragraphOf (text : String) : Document :=
  .node .paragraph none none .null [] [ofText text]

mutual

/-- All nodes, each before its children. -/
def nodes : Document → List Document
  | .node kind text name value attributes children =>
    .node kind text name value attributes children :: nodesOfAll children

def nodesOfAll : List Document → List Document
  | [] => []
  | d :: ds => d.nodes ++ nodesOfAll ds

end

/-! ### Text -/

/-- Whether all nodes are paragraphs. -/
def areParagraphs (ds : List Document) : Bool :=
  ds.all fun d => d.kind == .paragraph

mutual

/-- The text of a node: that of its children if it has none of its own. Paragraphs of a
document are set apart by blank lines. -/
def plainText : Document → String
  | .node kind text _ _ _ children =>
    if kind.isLeaf then text.getD ""
    else
      (if kind = .document ∧ areParagraphs children then "\n\n" else "").intercalate
        (plainTexts children)

def plainTexts : List Document → List String
  | [] => []
  | d :: ds => d.plainText :: plainTexts ds

end

/-- Replaces three or more line feeds in a row by two. `run` counts those just read. -/
def squeezeLines (run : Nat) : List Char → List Char
  | [] => []
  | c :: cs =>
    if c = '\n' then if run < 2 then c :: squeezeLines (run + 1) cs else squeezeLines run cs
    else c :: squeezeLines 0 cs

def normalizeChars (cs : List Char) : List Char :=
  Text.trim (· == '\n') (squeezeLines 0 (Text.universalNewlines cs))

def normalize (s : String) : String :=
  String.ofList (normalizeChars s.toList)

/-- The pieces of a text between pairs of line feeds. `piece` is the piece being
read. -/
def splitBlankLines (piece : List Char) : List Char → List (List Char)
  | '\n' :: '\n' :: cs => piece :: splitBlankLines [] cs
  | c :: cs => splitBlankLines (piece ++ [c]) cs
  | [] => [piece]

def read (s : String) : Document :=
  match normalizeChars s.toList with
  | [] => ofChildren []
  | cs => ofChildren ((splitBlankLines [] cs).map fun p => paragraphOf (String.ofList p))

def write (d : Document) : String :=
  normalize d.plainText

/-! ### Paragraphs -/

/-- A node that is put into the paragraph being made, or what divides paragraphs. -/
inductive Piece where
  | node (d : Document)
  | division

def pieces (d : Document) : List Piece :=
  if d.kind = .text ∧ Text.contains ['\n', '\n'] d.text.toList then
    ((splitBlankLines [] d.text.toList).map fun p =>
      if p.isEmpty then [] else [Piece.node (ofText (String.ofList p))]).intersperse [.division]
      |>.flatten
  else [.node d]

/-- Nodes between divisions, without empty groups. `group` is the group being made. -/
def groups (group : List Document) : List Piece → List (List Document)
  | [] => if group.isEmpty then [] else [group]
  | .node d :: ps => groups (group ++ [d]) ps
  | .division :: ps => if group.isEmpty then groups [] ps else group :: groups [] ps

def paragraphs (d : Document) : List (List Document) :=
  if !d.children.isEmpty && areParagraphs d.children then d.children.map children
  else groups [] (d.children.flatMap pieces)

/-! ### Documents as values -/

mutual

/-- A document as a value. What is absent or empty is left out. -/
def toValue : Document → Value
  | .node kind text name value attributes children =>
    .object ([("kind", .text kind.name)]
      ++ (text.map fun t => ("text", Value.text t)).toList
      ++ (name.map fun n => ("name", Value.text n)).toList
      ++ (if value.isNull then [] else [("value", value)])
      ++ (if attributes.isEmpty then [] else [("attrs", .object attributes)])
      ++ (if children.isEmpty then [] else [("children", .list (toValues children))]))

def toValues : List Document → List Value
  | [] => []
  | d :: ds => d.toValue :: toValues ds

end

end Document

end Covenant
