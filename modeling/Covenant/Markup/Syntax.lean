import Covenant.Chart.Tree
import Covenant.Markup.Node

/-!
The syntax of template markup.

Text is everything without two opening braces in a row. Fields, blocks and expressions
stand in double braces. The text of a conditional is plain text.
-/

namespace Covenant.Markup

/-- The keywords of blocks. -/
inductive Keyword where
  | clause
  | within
  | ulist
  | olist
  | join
deriving DecidableEq, Hashable, Repr

namespace Keyword

def all : List Keyword :=
  [.clause, .within, .ulist, .olist, .join]

def word : Keyword → String
  | .clause => "clause"
  | .within => "with"
  | .ulist => "ulist"
  | .olist => "olist"
  | .join => "join"

end Keyword

/-- Tokens that are always written the same. -/
inductive Mark where
  | opening
  | closing
  | ifStart
  | ifEnd
  | otherwise
  | blockStart (k : Keyword)
  | blockEnd (k : Keyword)
  | expressionStart
  | expressionEnd
  | as
  | separator
  | equal
deriving DecidableEq, Hashable, Repr

namespace Mark

def text : Mark → String
  | .opening => "\x7b\x7b"
  | .closing => "\x7d\x7d"
  | .ifStart => "\x7b\x7b#if"
  | .ifEnd => "\x7b\x7b/if\x7d\x7d"
  | .otherwise => "\x7b\x7belse\x7d\x7d"
  | .blockStart k => "\x7b\x7b#" ++ k.word
  | .blockEnd k => "\x7b\x7b/" ++ k.word ++ "\x7d\x7d"
  | .expressionStart => "\x7b\x7b%"
  | .expressionEnd => "%\x7d\x7d"
  | .as => "as"
  | .separator => "separator"
  | .equal => "="

/-- The marks that stand for themselves in the order in which they are numbered. -/
def numbered : List Mark :=
  [.opening, .closing, .ifStart, .ifEnd, .otherwise]
    ++ (Keyword.all.flatMap fun k => [.blockStart k, .blockEnd k])
    ++ [.expressionStart, .expressionEnd]

def label : Mark → String
  | .as => "AS"
  | .separator => "SEPARATOR"
  | .equal => "EQUAL"
  | m => "__ANON_" ++ toString (numbered.idxOf m)

end Mark

/-- The tokens of template markup. -/
inductive Token where
  | text
  | name
  | string
  | expression
  | blanks
  | mark (m : Mark)
deriving DecidableEq, Hashable, Repr

/-- The length of the text before two opening braces. -/
def textRun : List Char → Nat
  | [] => 0
  | '{' :: '{' :: _ => 0
  | _ :: cs => textRun cs + 1

/-- The length of the text before the end of an expression. -/
def expressionRun : List Char → Nat
  | [] => 0
  | '%' :: '}' :: '}' :: _ => 0
  | _ :: cs => expressionRun cs + 1

/-- The length of the rest of a string literal with its closing quote. A backslash
goes with the character after it, which is no line feed. -/
def stringRun? : List Char → Option Nat
  | [] => none
  | '"' :: _ => some 1
  | '\\' :: c :: cs => if c = '\n' then none else (stringRun? cs).map (· + 2)
  | '\\' :: [] => none
  | _ :: cs => (stringRun? cs).map (· + 1)

def nameRun : List Char → Nat
  | [] => 0
  | c :: cs =>
    if c.isAlpha || c == '_' then (cs.takeWhile fun c => c.isAlphanum || c == '_').length + 1
    else 0

namespace Token

def label : Token → String
  | .text => "TEXT"
  | .name => "NAME"
  | .string => "STRING"
  | .expression => "EXPR"
  | .blanks => "_WS"
  | .mark m => m.label

/-- The length of the token at the start of a text, zero if there is none. -/
def length : Token → List Char → Nat
  | .text, cs => textRun cs
  | .name, cs => nameRun cs
  | .string, '"' :: cs => ((stringRun? cs).map (· + 1)).getD 0
  | .string, _ => 0
  | .expression, cs => expressionRun cs
  | .blanks, cs => (cs.takeWhile fun c => c == ' ' || c == '\t').length
  | .mark m, cs => if (Text.dropStart? m.text.toList cs).isSome then m.text.length else 0

end Token

/-- The parts of template markup. -/
inductive Phrase where
  | level
  | text
  | binding
  | formatted
  | shown
  | choice
  | block (k : Keyword)
  | separated
  | expression
  | gap
  | body
deriving DecidableEq, Hashable, Repr, Inhabited

namespace Phrase

def members : List Phrase :=
  [.text, .binding, .formatted, .shown, .choice]
    ++ Keyword.all.map .block ++ [.separated, .expression]

def all : List Phrase :=
  .level :: members ++ [.gap, .body]

def mark (m : Mark) : Part Phrase Token :=
  .token (.mark m)

/-- The opening of a conditional or of a block: `start`, a field name and the closing
braces. -/
def opening (start : Mark) : List (Part Phrase Token) :=
  [mark start, .token .blanks, .token .name, .goal .gap, mark .closing]

def productions : Phrase → List (List (Part Phrase Token))
  | .level => [] :: members.map fun p => [.goal .level, .goal p]
  | .text => [[.token .text]]
  | .binding => [[mark .opening, .goal .gap, .token .name, .goal .gap, mark .closing]]
  | .formatted =>
    [[mark .opening, .goal .gap, .token .name, .token .blanks, mark .as, .token .blanks,
      .token .string, .goal .gap, mark .closing]]
  | .shown => [opening .ifStart ++ [.goal .body, mark .ifEnd]]
  | .choice =>
    [opening .ifStart ++ [.goal .body, mark .otherwise, .goal .body, mark .ifEnd]]
  | .block k => [opening (.blockStart k) ++ [.goal .level, mark (.blockEnd k)]]
  | .separated =>
    [[mark (.blockStart .join), .token .blanks, .token .name, .token .blanks, mark .separator,
      .goal .gap, mark .equal, .goal .gap, .token .string, .goal .gap, mark .closing,
      .goal .level, mark (.blockEnd .join)]]
  | .expression => [[mark .expressionStart, .token .expression, mark .expressionEnd]]
  | .gap => [[], [.token .blanks]]
  | .body => [[], [.token .text]]

end Phrase

/-- The grammar of template markup. A token is as long as it can be. -/
def cfg : Cfg Phrase Token :=
  { goals := Phrase.all
    productions := Phrase.productions
    tokens := fun t cs => if t.length cs = 0 then [] else [t.length cs] }

end Covenant.Markup
