import Covenant.Pattern.Basic

/-!
Regular expressions in their usual notation.

The notation has literal characters, `.`, character classes with ranges and
negation, the class escapes `\d \w \s` and their negations, escapes of single
characters, groups, alternatives, and the repetitions `*`, `+`, `?`, `{n}`,
`{n,}`, `{,m}` and `{n,m}`, which a following `?` makes lazy.
-/

namespace Covenant.Pattern

/-! ### Escapes -/

def classEscape? : Char → Option ClassPart
  | 'd' => some .digit
  | 'D' => some (.other .digit)
  | 'w' => some .word
  | 'W' => some (.other .word)
  | 's' => some .blank
  | 'S' => some (.other .blank)
  | _ => none

def controlEscape? : Char → Option Char
  | 'a' => some '\x07'
  | 'f' => some '\x0c'
  | 'n' => some '\n'
  | 'r' => some '\r'
  | 't' => some '\t'
  | 'v' => some '\x0b'
  | _ => none

/-- The character whose code is written by `width` hexadecimal digits. -/
def hexEscape? (width : Nat) (cs : List Char) : Option (Char × List Char) := do
  let digits ← (cs.take width).mapM Text.hexValue?
  if digits.length < width then none
  let code := digits.foldl (fun n d => 16 * n + d) 0
  if code.isValidChar then some (Char.ofNat code, cs.drop width) else none

/-- An octal escape after its first digit, which is a zero. -/
def octalEscape (cs : List Char) : Char × List Char :=
  let digits := (cs.take 2).takeWhile fun c => '0' ≤ c && c ≤ '7'
  (Char.ofNat (digits.foldl (fun n c => 8 * n + (c.toNat - 48)) 0), cs.drop digits.length)

/-- The character that an escape after a backslash stands for. Letters and digits
without a meaning are refused. -/
def charEscape? : List Char → Option (Char × List Char)
  | [] => none
  | 'x' :: cs => hexEscape? 2 cs
  | 'u' :: cs => hexEscape? 4 cs
  | 'U' :: cs => hexEscape? 8 cs
  | '0' :: cs => some (octalEscape cs)
  | c :: cs =>
    match controlEscape? c with
    | some d => some (d, cs)
    | none => if c.isAlphanum then none else some (c, cs)

/-! ### Classes -/

/-- One place of a character class: a character or a class escape. -/
def classItem? : List Char → Option ((Char ⊕ ClassPart) × List Char)
  | [] => none
  | '\\' :: 'b' :: cs => some (.inl '\x08', cs)
  | '\\' :: c :: cs =>
    match classEscape? c with
    | some part => some (.inr part, cs)
    | none => (charEscape? (c :: cs)).map fun r => (.inl r.1, r.2)
  | ['\\'] => none
  | c :: cs => some (.inl c, cs)

def classPart : Char ⊕ ClassPart → ClassPart
  | .inl c => .range c c
  | .inr part => part

/-- The places of a class up to its closing bracket, which stands for itself at the
start. Each round reads a character, so `fuel` beyond the length of the text is
never used up. -/
def classParts (first : Bool) : Nat → List Char → Option (List ClassPart × List Char)
  | 0, _ => none
  | fuel + 1, cs =>
    match first, cs with
    | false, ']' :: cs => some ([], cs)
    | _, cs => do
      let (item, cs) ← classItem? cs
      match cs with
      | '-' :: ']' :: cs => return ([classPart item, .range '-' '-'], cs)
      | '-' :: cs =>
        let (stop, cs) ← classItem? cs
        match item, stop with
        | .inl low, .inl high =>
          if high < low then none
          let (parts, cs) ← classParts false fuel cs
          return (.range low high :: parts, cs)
        | _, _ => none
      | cs =>
        let (parts, cs) ← classParts false fuel cs
        return (classPart item :: parts, cs)

/-! ### Repetitions -/

/-- A count in braces: the least and the greatest number of rounds. Without any
digit the braces stand for themselves. -/
def braces? (cs : List Char) : Option ((Nat × Option Nat) × List Char) :=
  let low := cs.takeWhile Char.isDigit
  match cs.dropWhile Char.isDigit with
  | '\x7d' :: rest =>
    if low.isEmpty then none
    else some ((Text.digitsValue low, some (Text.digitsValue low)), rest)
  | ',' :: rest =>
    let high := rest.takeWhile Char.isDigit
    match rest.dropWhile Char.isDigit with
    | '\x7d' :: rest =>
      some ((Text.digitsValue low, if high.isEmpty then none else some (Text.digitsValue high)),
        rest)
    | _ => none
  | _ => none

/-- The number of rounds that a repetition mark asks for. -/
def rounds? : List Char → Option ((Nat × Option Nat) × List Char)
  | '*' :: cs => some ((0, none), cs)
  | '+' :: cs => some ((1, none), cs)
  | '?' :: cs => some ((0, some 1), cs)
  | '\x7b' :: cs => braces? cs
  | _ => none

/-- The pattern `p` with the repetition mark that follows it, if any. A second mark
is refused. -/
def repeated? (p : Pattern) (cs : List Char) : Option (Pattern × List Char) :=
  match rounds? cs with
  | none => some (p, cs)
  | some ((least, most), cs) => do
    if most.any (· < least) then none
    let (isLazy, cs) := match cs with
      | '?' :: cs => (true, cs)
      | cs => (false, cs)
    if (rounds? cs).isSome then none
    return (.rep p least (most.map (· - least)) isLazy, cs)

/-! ### Expressions -/

/-- The mark at the start of a group, after its bracket: a plain group or one that
is not counted. -/
def groupStart? : List Char → Option (List Char)
  | '?' :: ':' :: cs => some cs
  | '?' :: _ => none
  | cs => some cs

mutual

/-- Alternatives up to a closing bracket or the end. -/
def readChoice : Nat → List Char → Option (Pattern × List Char)
  | 0, _ => none
  | fuel + 1, cs => do
    let (p, cs) ← readSequence fuel cs
    match cs with
    | '|' :: cs =>
      let (q, cs) ← readChoice fuel cs
      return (.alt p q, cs)
    | cs => return (p, cs)

/-- Items up to a bar, a closing bracket or the end. -/
def readSequence : Nat → List Char → Option (Pattern × List Char)
  | 0, _ => none
  | fuel + 1, cs =>
    match cs with
    | [] => some (.empty, [])
    | '|' :: _ | ')' :: _ => some (.empty, cs)
    | cs => do
      let (p, cs) ← readItem fuel cs
      let (p, cs) ← repeated? p cs
      let (q, cs) ← readSequence fuel cs
      return (if q = .empty then p else .seq p q, cs)

def readItem : Nat → List Char → Option (Pattern × List Char)
  | 0, _ => none
  | fuel + 1, cs =>
    match cs with
    | [] => none
    | '.' :: cs => some (.any, cs)
    | '(' :: cs => do
      let cs ← groupStart? cs
      let (p, cs) ← readChoice fuel cs
      match cs with
      | ')' :: cs => return (p, cs)
      | _ => none
    | '[' :: '^' :: cs => (classParts true (cs.length + 1) cs).map fun r => (.oneOf true r.1, r.2)
    | '[' :: cs => (classParts true (cs.length + 1) cs).map fun r => (.oneOf false r.1, r.2)
    | '\\' :: c :: cs =>
      match classEscape? c with
      | some part => some (.oneOf false [part], cs)
      | none => (charEscape? (c :: cs)).map fun r => (.char r.1, r.2)
    | '\\' :: [] => none
    | '*' :: _ | '+' :: _ | '?' :: _ | '^' :: _ | '$' :: _ => none
    | '\x7b' :: cs => if (braces? cs).isSome then none else some (.char '\x7b', cs)
    | c :: cs => some (.char c, cs)

end

def ofChars? (cs : List Char) : Option Pattern :=
  match readChoice (3 * cs.length + 3) cs with
  | some (p, []) => some p
  | _ => none

def ofString? (s : String) : Option Pattern :=
  ofChars? s.toList

end Covenant.Pattern
