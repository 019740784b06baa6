import Covenant.Pattern.Reader

/-!
Patterns between slashes.

In grammar source a pattern stands between slashes on one line. `encode` escapes
the slashes and line breaks that are not escaped already, reading backslash pairs
from the left; `decode` turns an escaped slash back and leaves every other pair.

The parser that a listing is given to has an own reading of what stands between slashes
(`unescape?`): it dissolves the escapes of string literals, those of control characters and
character codes, before anything is taken as a regular expression.
-/

namespace Covenant.Slashed

def encode : List Char → List Char
  | [] => []
  | ['\\'] => ['\\']
  | '\\' :: c :: cs => '\\' :: c :: encode cs
  | c :: cs =>
    if c = '/' then '\\' :: '/' :: encode cs
    else if c = '\n' then '\\' :: 'n' :: encode cs
    else if c = '\r' then '\\' :: 'r' :: encode cs
    else c :: encode cs

theorem encode_ne_nil {p : List Char} (h : p ≠ []) : encode p ≠ [] := by
  fun_induction encode p <;> simp_all

/-- The pattern that a body between slashes stands for. -/
def decode : List Char → List Char
  | [] => []
  | ['\\'] => ['\\']
  | '\\' :: c :: cs => if c = '/' then '/' :: decode cs else '\\' :: c :: decode cs
  | c :: cs => c :: decode cs

theorem decode_ne_nil {p : List Char} (h : p ≠ []) : decode p ≠ [] := by
  fun_induction decode p <;> simp_all

/-- Double quotes outside backslash pairs by their code. -/
def hideQuotes : List Char → List Char
  | [] => []
  | ['\\'] => ['\\']
  | '\\' :: c :: cs => '\\' :: c :: hideQuotes cs
  | c :: cs => if c = '"' then '\\' :: 'x' :: '2' :: '2' :: hideQuotes cs else c :: hideQuotes cs

/-! ### What a parser reads -/

/-- What an escape stands for, from the character after its backslash on, and how many
characters it takes. A pair that string literals do not know is left to the regular
expression; a line break cannot be escaped. -/
def escape? : List Char → Option (List Char × Nat)
  | [] => none
  | 'x' :: cs => (Pattern.hexEscape? 2 cs).map fun r => ([r.1], 3)
  | 'u' :: cs => (Pattern.hexEscape? 4 cs).map fun r => ([r.1], 5)
  | 'U' :: cs => (Pattern.hexEscape? 8 cs).map fun r => ([r.1], 9)
  | 'n' :: _ => some (['\n'], 1)
  | 'r' :: _ => some (['\r'], 1)
  | 't' :: _ => some (['\t'], 1)
  | 'f' :: _ => some (['\x0c'], 1)
  | '"' :: _ => some (['"'], 1)
  | c :: _ => if c = '\n' ∨ c = '\r' then none else some (['\\', c], 1)

/-- The regular expression that a body between slashes is read as, after `skip` characters
that an escape has taken. -/
def unescapeFrom? : Nat → List Char → Option (List Char)
  | _, [] => some []
  | skip + 1, _ :: cs => unescapeFrom? skip cs
  | 0, c :: cs =>
    if c = '\\' then do
      let (read, taken) ← escape? cs
      return read ++ (← unescapeFrom? taken cs)
    else if c = '\n' ∨ c = '\r' then none
    else (unescapeFrom? 0 cs).map (c :: ·)

/-- The regular expression that a body between slashes is read as. -/
def unescape? (cs : List Char) : Option (List Char) :=
  unescapeFrom? 0 cs

/-- The body of a pattern between slashes without bare double quotes. -/
def body (regex : List Char) : List Char :=
  hideQuotes (encode regex)

/-- The regular expression that becomes of one that is put between slashes. -/
def respell? (regex : List Char) : Option (List Char) :=
  unescape? (body regex)

/-- Whether every backslash is followed by a character, in pairs from the left. -/
def paired : List Char → Bool
  | [] => true
  | ['\\'] => false
  | '\\' :: _ :: cs => paired cs
  | _ :: cs => paired cs

theorem paired_cons_plain {c : Char} (h : c ≠ '\\') (cs : List Char) :
    paired (c :: cs) = paired cs := by
  rw [paired]
  · exact fun h' => absurd h' h
  · exact fun _ _ h' => absurd h' h

end Covenant.Slashed
