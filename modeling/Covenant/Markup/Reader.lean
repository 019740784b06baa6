import Covenant.Grammar.Reading
import Covenant.Markup.Syntax

/-!
Reading template markup.

A text is read as a level of nodes by the grammar of template markup. The last text of
a level is marked as such.
-/

namespace Covenant.Markup

/-- Marks the last node of a level if it is a text. -/
def markLast (level : List Node) : List Node :=
  match level.getLast? with
  | some (.text body _ place) => level.dropLast ++ [.text body true place]
  | _ => level

/-- The text between two quotes, with its escapes. -/
def readString (cs : List Char) : Outcome String :=
  match Json.read (String.ofList cs) with
  | .ok (.text s) => .ok s
  | .ok _ => .fail .undefined
  | .error f => .fail (.reading (.malformedMarkup f))

/-- The text of a conditional, which may be empty. -/
def bodyText : Tree Phrase → String
  | .node .body _ [.leaf _ cs] => String.ofList cs
  | _ => ""

/-- The kind of a block without a separator of its own. -/
def Keyword.block (separator : String) : Keyword → BlockKind
  | .clause => .clause
  | .within => .within
  | .ulist => .list .bullets
  | .olist => .list .numbers
  | .join => .list (.joined separator)

/-- The nodes of a level. `place` finds the place of a token, and `separator` is that of
joins without their own. -/
def levelOf (place : Nat → Text.Position) (separator : String) :
    Tree Phrase → Outcome (List Node)
  | .node .level _ [front, .node .text _ [.leaf i cs]] => do
    let before ← levelOf place separator front
    return before ++ [.text (String.ofList cs) false (place i)]
  | .node .level _ [front, .node .binding _ [_, _, .leaf i name, _, _]] => do
    let before ← levelOf place separator front
    return before ++ [.binding (String.ofList name) none (place i)]
  | .node .level _ [front, .node .formatted _ [_, _, .leaf i name, _, _, _, .leaf _ format, _, _]] =>
    do
    let before ← levelOf place separator front
    let format ← readString format
    return before ++ [.formatted (String.ofList name) format (place i)]
  | .node .level _ [front, .node .shown _ [_, _, .leaf i name, _, _, whenTrue, _]] => do
    let before ← levelOf place separator front
    return before ++ [.shown (String.ofList name) (bodyText whenTrue) (place i)]
  | .node .level _ [front, .node .choice _ [_, _, .leaf i name, _, _, whenTrue, _, whenFalse, _]] =>
    do
    let before ← levelOf place separator front
    return before
      ++ [.choice (String.ofList name) (bodyText whenTrue) (bodyText whenFalse) (place i)]
  | .node .level _ [front, .node (.block k) _ [_, _, .leaf i name, _, _, nested, _]] => do
    let before ← levelOf place separator front
    let nested ← levelOf place separator nested
    return before
      ++ [.block (k.block separator) (String.ofList name) (markLast nested) (place i)]
  | .node .level _
      [front, .node .separated _ [_, _, .leaf i name, _, _, _, _, _, .leaf _ own, _, _, nested, _]] =>
    do
    let before ← levelOf place separator front
    let nested ← levelOf place separator nested
    let own ← readString own
    return before
      ++ [.block (.list (.joined own)) (String.ofList name) (markLast nested) (place i)]
  | .node .level _ [front, .node .expression _ [_, .leaf i cs, _]] => do
    let before ← levelOf place separator front
    return before ++ [.expression (Text.strip (String.ofList cs)) (place i)]
  | _ => .ok []

/-- Reads a template. `separator` is that of joins without their own. -/
def read (text : String) (file : Option String := none) (separator : String := ", ") :
    Outcome (List Node) :=
  let cs := text.toList
  match cfg.read .level cs with
  | .one t =>
    match levelOf (Text.Position.of cs) separator t with
    | .ok level => .ok (markLast level)
    | .error f => .error (f.inFile file)
  | .several => .error { cause := .ambiguous, file }
  | .none furthest expected =>
    .error ((Grammar.unreadable cs furthest (expected.map Token.label)).inFile file)

end Covenant.Markup
