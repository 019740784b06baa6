import Covenant.Document.Html

/-!
Renderings of documents.

A document is rendered as text, as a value that tells its tree, as HTML, or as a value
for an editor. On demand the quotes of bound texts are left out, except in the tree.
-/

namespace Covenant

namespace Document

/-! ### Leaving out quotes -/

/-- The text of a bound value without its quotes, if it has them. -/
def unquotedText (kind : DocumentKind) (text : Option String) (value : Value) :
    Outcome (Option String) :=
  let s := text.getD ""
  let cs := s.toList
  if kind = .variable ∧ value.text?.isSome ∧ 2 ≤ cs.length ∧ cs.head? = some '"'
      ∧ cs.getLast? = some '"' then
    match Json.read s with
    | .ok v => .ok (some v.plain)
    | .error f => .fail (.json f)
  else .ok text

mutual

/-- A document in which bound texts have no quotes. -/
def unquote : Document → Outcome Document
  | .node kind text name value attributes children => do
    let text ← unquotedText kind text value
    let children ← unquoteAll children
    return .node kind text name value attributes children

/-- Documents in which bound texts have no quotes. -/
def unquoteAll : List Document → Outcome (List Document)
  | [] => .ok []
  | d :: ds => do
    let d ← d.unquote
    let ds ← unquoteAll ds
    return d :: ds

end

/-! ### Editor values -/

/-- The data of an editor node: the field, and the attributes that it shows. -/
def editorData (kind : DocumentKind) (name : Option String) (value : Value)
    (attributes : Table Value) : Table Value :=
  let named : Table Value := (name.map fun n => ("id", Value.text n)).toList
  let shown := if kind.isLeaf then attributes.filter fun e => !e.2.isNull else attributes
  let data := shown.foldl (fun t e => Table.put t e.1 e.2) named
  if kind = .conditional then Table.put data "value" value else data

def editorText (s : String) : Value :=
  .object [("object", .text "text"), ("text", .text s)]

mutual

def editorNode : Document → Value
  | .node kind text name value attributes children =>
    if kind = .text then editorText (text.getD "")
    else
      .object [("object", .text "inline"), ("type", .text kind.name),
        ("data", .object (editorData kind name value attributes)),
        ("nodes", .list
          (if kind.isLeaf then [editorText (text.getD "")] else editorNodes children))]

def editorNodes : List Document → List Value
  | [] => []
  | d :: ds => d.editorNode :: editorNodes ds

end

def editorValue (d : Document) : Value :=
  let block (p : List Document) : Value :=
    .object [("object", .text "block"), ("type", .text "paragraph"), ("data", .object []),
      ("nodes", .list (editorNodes p))]
  .object [("object", .text "value"),
    ("document", .object [("object", .text "document"), ("data", .object []),
      ("nodes", .list (d.paragraphs.map block))])]

end Document

/-- The formats in which documents are rendered. -/
inductive Rendering where
  | markdown
  | markupParsed
  | html
  | slate
deriving DecidableEq, Repr, Inhabited

namespace Rendering

def names : List (String × Rendering) :=
  [("markdown", .markdown), ("markup_parsed", .markupParsed), ("html", .html), ("slate", .slate)]

def ofName (name : String) : Outcome Rendering :=
  match names.lookup name with
  | some r => .ok r
  | none => .fail (.output (.format name))

def write (r : Rendering) (d : Document) : Value :=
  match r with
  | .markdown => .text d.write
  | .markupParsed => d.toValue
  | .html => .text d.writeHtml
  | .slate => d.editorValue

/-- Renders a document, without the quotes of bound texts if asked for. -/
def render (r : Rendering) (d : Document) (unquote : Bool := false) : Outcome Value :=
  if unquote ∧ r ≠ .markupParsed then d.unquote.map r.write else .ok (r.write d)

end Rendering

end Covenant
