import Covenant.Text.Basic

/-!
Patterns and how they match.

A pattern is tried from left to right with backtracking: of two alternatives the
left one first, and a repetition takes as many rounds as it can before it gives
some back. `Pattern.run` hands every way of matching, in that order, to what comes
next, until that succeeds; so `match?` gives the length of the preferred match and
`split?` the preferred way of cutting a text into matches of several patterns.
-/

namespace Covenant

/-- What one place of a character class admits. -/
inductive ClassPart where
  | range (low high : Char)
  | digit
  | word
  | blank
  | other (part : ClassPart)
deriving DecidableEq, Repr

/-- Whether a character is admitted. -/
def ClassPart.admits : ClassPart → Char → Bool
  | .range low high, c => low ≤ c && c ≤ high
  | .digit, c => Text.isDecimalDigit c
  | .word, c => Text.isAlphanumeric c || c == '_'
  | .blank, c => Text.isBlank c
  | .other part, c => !part.admits c

/-- A pattern of text. `any` is every character but a line feed; a repetition takes
at least `least` rounds, and at most `least` plus `more` if that is given, as many
as possible unless it is `lazy`. -/
inductive Pattern where
  | empty
  | char (c : Char)
  | any
  | oneOf (negated : Bool) (parts : List ClassPart)
  | seq (p q : Pattern)
  | alt (p q : Pattern)
  | rep (p : Pattern) (least : Nat) (more : Option Nat) (lazy : Bool)
deriving DecidableEq, Repr

namespace Pattern

/-- What follows a match: the rest of the text and the number of characters read. -/
abbrev Next (β : Type) := List Char → Nat → Option β

/-- Exactly `n` rounds. -/
def rounds {β : Type} (step : List Char → Nat → Next β → Option β) :
    Nat → List Char → Nat → Next β → Option β
  | 0, s, n, k => k s n
  | m + 1, s, n, k => step s n fun s n => rounds step m s n k

/-- Up to `more` rounds. A round that reads nothing is the last, so every other one
shortens the text and `fuel` beyond its length is never used up. -/
def moreRounds {β : Type} (step : List Char → Nat → Next β → Option β) (lazy : Bool) :
    Nat → Option Nat → List Char → Nat → Next β → Option β
  | 0, _, s, n, k => k s n
  | fuel + 1, more, s, n, k =>
    let again := fun (_ : Unit) =>
      if more = some 0 then none
      else step s n fun s' n' =>
        if n' = n then k s' n'
        else moreRounds step lazy fuel (more.map (· - 1)) s' n' k
    if lazy then (k s n).orElse again else (again ()).orElse fun _ => k s n

/-- Matches at the start of `s`, `n` characters into the text, and goes on with
`k` after each match in order of preference. -/
def run {β : Type} : Pattern → List Char → Nat → Next β → Option β
  | .empty, s, n, k => k s n
  | .char c, s, n, k =>
    match s with
    | d :: s => if c = d then k s (n + 1) else none
    | [] => none
  | .any, s, n, k =>
    match s with
    | d :: s => if d = '\n' then none else k s (n + 1)
    | [] => none
  | .oneOf negated parts, s, n, k =>
    match s with
    | d :: s => if parts.any (·.admits d) != negated then k s (n + 1) else none
    | [] => none
  | .seq p q, s, n, k => p.run s n fun s n => q.run s n k
  | .alt p q, s, n, k => (p.run s n k).orElse fun _ => q.run s n k
  | .rep p least more lazy, s, n, k =>
    rounds p.run least s n fun s n => moreRounds p.run lazy (s.length + 1) more s n k

/-- The length of the preferred match at the start of a text. -/
def match? (p : Pattern) (s : List Char) : Option Nat :=
  p.run s 0 fun _ n => some n

/-- Whether some match is the whole text. -/
def matchesAll (p : Pattern) (s : List Char) : Bool :=
  (p.run s 0 fun rest _ => if rest.isEmpty then some () else none).isSome

/-- The preferred way of cutting a text into matches of the patterns. -/
def split? : List Pattern → List Char → Option (List (List Char))
  | [], s => if s.isEmpty then some [] else none
  | p :: ps, s => p.run s 0 fun rest n => (split? ps rest).map (s.take n :: ·)

/-! ### Building patterns -/

def literal : List Char → Pattern
  | [] => .empty
  | [c] => .char c
  | c :: cs => .seq (.char c) (literal cs)

def seqAll : List Pattern → Pattern
  | [] => .empty
  | [p] => p
  | p :: ps => .seq p (seqAll ps)

/-- A choice of patterns; without any, nothing matches. -/
def altAll : List Pattern → Pattern
  | [] => .oneOf false []
  | [p] => p
  | p :: ps => .alt p (altAll ps)

/-! ### Widths -/

/-- Whether a match may read nothing, as far as the shape of the pattern tells. -/
def mayBeEmpty : Pattern → Bool
  | .empty => true
  | .char _ | .any | .oneOf _ _ => false
  | .seq p q => p.mayBeEmpty && q.mayBeEmpty
  | .alt p q => p.mayBeEmpty || q.mayBeEmpty
  | .rep p least _ _ => least == 0 || p.mayBeEmpty

/-! ### Tokens -/

/-- Lengths at which a token of this pattern may end: that of the preferred match,
and those of the preferred matches in its beginnings. -/
def tokenLengths (p : Pattern) (s : List Char) : List Nat :=
  match p.match? s with
  | none => []
  | some n =>
    let token := s.take n
    (n :: (List.range (n - 1)).filterMap fun j => p.match? (token.take (n - 1 - j))).eraseDups

end Pattern

end Covenant
