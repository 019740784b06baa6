import Covenant.Grammar.Rule

/-!
Tokens of grammar source.

Spaces and tabs separate tokens where they need separating. No two kinds of token
start with the same character in the same place, so a text has at most one reading
as tokens; where it has none, a `stray` token ends the list.
-/

namespace Covenant.Source

/-- A token; literals and patterns are kept as they are written. -/
inductive Token where
  | startMark
  | expressionsMark
  | arrow
  | bar
  | actionStart
  | actionEnd
  | equals
  | mark (c : Cardinality)
  | name (s : String)
  | literal (s : String)
  | pattern (body : List Char)
  | number (n : Nat)
  | comment (s : String)
  | newline
  | stray
deriving DecidableEq, Repr

def isNameStart (c : Char) : Bool :=
  c.isAlpha || c == '_' || c == '$'

def isNamePart (c : Char) : Bool :=
  isNameStart c || c.isDigit || c == '.'

/-- The body of a token that ends with `quote`, up to and without it: a backslash
takes the next character along, and no line break occurs. -/
def quotedBody (quote : Char) : List Char → Option (List Char × List Char)
  | [] => none
  | ['\\'] => none
  | '\\' :: c :: cs =>
    if c = '\n' then none
    else (quotedBody quote cs).map fun r => ('\\' :: c :: r.1, r.2)
  | c :: cs =>
    if c = quote then some ([], cs)
    else if c = '\n' then none
    else (quotedBody quote cs).map fun r => (c :: r.1, r.2)

theorem quotedBody_plain {quote c : Char} (hb : c ≠ '\\') (hq : c ≠ quote) (hn : c ≠ '\n')
    (cs : List Char) :
    quotedBody quote (c :: cs) = (quotedBody quote cs).map fun r => (c :: r.1, r.2) := by
  rw [quotedBody, if_neg hq, if_neg hn]
  · exact fun h' => absurd h' hb
  · exact fun _ _ h' => absurd h' hb

/-- The token that a text begins with, and what follows it. -/
def nextToken (cs : List Char) : Token × List Char :=
  match cs with
  | '\n' :: rest => (.newline, rest)
  | '\r' :: '\n' :: rest => (.newline, rest)
  | '-' :: '>' :: rest => (.arrow, rest)
  | '|' :: rest => (.bar, rest)
  | '\x7b' :: '%' :: rest => (.actionStart, rest)
  | '%' :: '\x7d' :: rest => (.actionEnd, rest)
  | '=' :: rest => (.equals, rest)
  | '?' :: rest => (.mark .optional, rest)
  | '*' :: rest => (.mark .many, rest)
  | '#' :: rest =>
    (.comment (String.ofList (rest.takeWhile (· != '\n'))), rest.dropWhile (· != '\n'))
  | '@' :: rest =>
    match Text.dropStart? "start".toList rest, Text.dropStart? "expressions".toList rest with
    | some rest, _ => (.startMark, rest)
    | none, some rest => (.expressionsMark, rest)
    | none, none => (.stray, [])
  | '"' :: rest =>
    match quotedBody '"' rest with
    | some (body, rest) => (.literal (String.ofList ('"' :: body ++ ['"'])), rest)
    | none => (.stray, [])
  | '/' :: rest =>
    match quotedBody '/' rest with
    | some ([], _) => (.stray, [])
    | some (body, rest) => (.pattern body, rest)
    | none => (.stray, [])
  | c :: rest =>
    if isNameStart c then
      (.name (String.ofList (c :: rest.takeWhile isNamePart)), rest.dropWhile isNamePart)
    else if c.isDigit then
      (.number (Text.digitsValue (c :: rest.takeWhile Char.isDigit)), rest.dropWhile Char.isDigit)
    else (.stray, [])
  | [] => (.stray, [])

theorem nextToken_name {c : Char} (hc : isNameStart c = true) (rest : List Char) :
    nextToken (c :: rest) = (.name (String.ofList (c :: rest.takeWhile isNamePart)),
      rest.dropWhile isNamePart) := by
  unfold nextToken
  split
  all_goals
    rename_i h
    cases h
  all_goals first
    | exact absurd hc (by decide)
    | rw [if_pos hc]

theorem nextToken_digit {c : Char} (hc : c.isDigit = true) (hn : isNameStart c = false)
    (rest : List Char) :
    nextToken (c :: rest) = (.number (Text.digitsValue (c :: rest.takeWhile Char.isDigit)),
      rest.dropWhile Char.isDigit) := by
  unfold nextToken
  split
  all_goals
    rename_i h
    cases h
  all_goals first
    | exact absurd hc (by decide)
    | rw [if_neg (by simp [hn]), if_pos hc]

/-- A token with the number of characters from its start to the end of the text. -/
structure Placed where
  token : Token
  left : Nat
deriving DecidableEq, Repr

/-- All tokens of a text. Each reads a character, so `fuel` beyond the length of the
text is never used up. -/
def tokens : Nat → List Char → List Placed
  | 0, _ => []
  | fuel + 1, cs =>
    match cs.dropWhile fun c => c == ' ' || c == '\t' with
    | [] => []
    | cs =>
      let (token, rest) := nextToken cs
      ⟨token, cs.length⟩ :: tokens fuel rest

end Covenant.Source
