import Covenant.Fault
import Covenant.Settings

/-!
Nodes of an annotated template.

A template is a text in which fields of a type are bound: by their values, by texts
that depend on a truth value, or by blocks that lay out the parts of a value. Every
node knows the place of its field name, or of its text.
-/

namespace Covenant.Markup

open Text (Position)

/-- How the items of a list are set apart. -/
inductive ListStyle where
  | bullets
  | numbers
  | joined (separator : String)
deriving DecidableEq, Repr, Inhabited

/-- What a block lays out: a clause, a value, or the items of a list. -/
inductive BlockKind where
  | clause
  | within
  | list (style : ListStyle)
deriving DecidableEq, Repr, Inhabited

/-- A node of a template. `foreign` is a node of a kind that templates do not have. -/
inductive Node where
  | text (body : String) (last : Bool) (place : Position)
  | binding (field : String) (format : Option String) (place : Position)
  | formatted (field format : String) (place : Position)
  | shown (field whenTrue : String) (place : Position)
  | choice (field whenTrue whenFalse : String) (place : Position)
  | block (kind : BlockKind) (field : String) (nested : List Node) (place : Position)
  | expression (body : String) (place : Position)
  | foreign (kind : String) (field : Option String) (line column : Option Nat)
deriving Repr, Inhabited

def ListStyle.keyword : ListStyle → String
  | .bullets => "ulist"
  | .numbers => "olist"
  | .joined _ => "join"

def ListStyle.tag : ListStyle → String
  | .bullets => "UListBinding"
  | .numbers => "OListBinding"
  | .joined _ => "JoinBinding"

def BlockKind.keyword : BlockKind → String
  | .clause => "clause"
  | .within => "with"
  | .list style => style.keyword

namespace Node

def field? : Node → Option String
  | .text .. | .expression .. => none
  | .binding field .. | .formatted field .. | .shown field .. | .choice field ..
  | .block _ field .. => some field
  | .foreign _ field .. => field

def place? : Node → Option Position
  | .text _ _ place | .binding _ _ place | .formatted _ _ place | .shown _ _ place
  | .choice _ _ _ place | .block _ _ _ place | .expression _ place => some place
  | .foreign _ _ (some line) (some column) => some ⟨line, column⟩
  | .foreign .. => none

def span (n : Node) : Outcome (Option Span) :=
  match n with
  | .foreign _ _ none _ => .ok none
  | n =>
    match n.place? with
    | some p => .ok (some ⟨p.line, p.column, some (p.line, p.column + (n.field?.getD "").length)⟩)
    | none => .fail .undefined

end Node

/-! ### Lists -/

/-- What stands in front of the first item of a list, and in front of each later
one. -/
def ListStyle.leads (s : Settings) : ListStyle → String × String
  | .bullets => (s.bullet, "\n" ++ s.bullet)
  | .numbers => (s.marker, "\n" ++ s.marker)
  | .joined separator => ("", separator)

/-- Puts a text in front of a level: in front of its first text if it begins with one,
and as a text of its own otherwise. The members of a level are nodes with something
that goes with them; `ofText` makes a member of a text. -/
def leadMembers {α : Type} (node : α → Node) (ofText : Node → α) (start : String)
    (level : List α) : Outcome (List α) :=
  if start.isEmpty then .ok level
  else
    match level with
    | [] => .ok [ofText (.text start false ⟨1, 1⟩)]
    | first :: rest =>
      match node first with
      | .text body last place => .ok (ofText (.text (start ++ body) last place) :: rest)
      | n =>
        match n.place? with
        | some place => .ok (ofText (.text start false place) :: first :: rest)
        | none => .fail .undefined

def lead (start : String) (level : List Node) : Outcome (List Node) :=
  leadMembers id id start level

end Covenant.Markup
