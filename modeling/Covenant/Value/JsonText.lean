import Covenant.Text.Basic

/-!
Strings of JSON text.

`encode` writes the body of a string literal and `decode` reads one back. Quote,
backslash and control characters are always escaped; with `ascii` every other
character outside the printable ASCII range is escaped too, by its UTF-16 units.
-/

namespace Covenant.JsonText

def escapeUnit (n : Nat) : List Char :=
  '\\' :: 'u' :: Text.hexDigits 4 n

/-- A character by its UTF-16 units: one below `0x10000`, a surrogate pair above. -/
def escapeUnits (c : Char) : List Char :=
  if c.toNat < 0x10000 then escapeUnit c.toNat
  else
    let n := c.toNat - 0x10000
    escapeUnit (0xD800 + n / 0x400) ++ escapeUnit (0xDC00 + n % 0x400)

def escape (ascii : Bool) (c : Char) : List Char :=
  if c = '"' then ['\\', '"']
  else if c = '\\' then ['\\', '\\']
  else if c = '\n' then ['\\', 'n']
  else if c = '\r' then ['\\', 'r']
  else if c = '\t' then ['\\', 't']
  else if c = '\x08' then ['\\', 'b']
  else if c = '\x0c' then ['\\', 'f']
  else if c.toNat < 32 then escapeUnit c.toNat
  else if ascii && 126 < c.toNat then escapeUnits c
  else [c]

def encode (ascii : Bool) (cs : List Char) : List Char :=
  cs.flatMap (escape ascii)

def literal (ascii : Bool) (s : String) : String :=
  String.ofList ('"' :: encode ascii s.toList ++ ['"'])

/-! ### Reading -/

/-- What is wrong with a string literal. -/
inductive Fault where
  | unterminated
  | control
  | escape
  | unit
deriving DecidableEq, Repr

/-- The character that an escape letter stands for. -/
def unescape? : Char → Option Char
  | '"' => some '"'
  | '\\' => some '\\'
  | '/' => some '/'
  | 'b' => some '\x08'
  | 'f' => some '\x0c'
  | 'n' => some '\n'
  | 'r' => some '\r'
  | 't' => some '\t'
  | _ => none

/-- Four hexadecimal digits that are followed by something. -/
def unit? : List Char → Option (Nat × List Char)
  | a :: b :: c :: d :: rest => do
    let x ← Text.hexValue? a
    let y ← Text.hexValue? b
    let z ← Text.hexValue? c
    let w ← Text.hexValue? d
    if rest.isEmpty then none
    return (((x * 16 + y) * 16 + z) * 16 + w, rest)
  | _ => none

def lowSurrogate? : List Char → Option (Nat × List Char)
  | '\\' :: 'u' :: cs => do
    let (n, rest) ← unit? cs
    if 0xDC00 ≤ n ∧ n < 0xE000 then some (n, rest) else none
  | _ => none

theorem length_unit {cs rest : List Char} {n : Nat} (h : unit? cs = some (n, rest)) :
    rest.length < cs.length := by
  unfold unit? at h
  split at h
  · simp only [Option.bind_eq_bind, Option.bind_eq_some_iff] at h
    obtain ⟨x, -, y, -, z, -, w, -, h⟩ := h
    split at h
    · simp at h
    · simp only [Option.pure_def, Option.some.injEq, Prod.mk.injEq] at h
      simp only [List.length_cons, ← h.2]
      omega
  · simp at h

theorem length_unit_lt {cs rest : List Char} {n : Nat} (h : unit? cs = some (n, rest)) :
    rest.length < cs.length + 1 + 1 :=
  Nat.lt_add_right 2 (length_unit h)

theorem length_lowSurrogate {cs rest : List Char} {n : Nat}
    (h : lowSurrogate? cs = some (n, rest)) : rest.length < cs.length := by
  unfold lowSurrogate? at h
  split at h
  · simp only [Option.bind_eq_bind, Option.bind_eq_some_iff] at h
    obtain ⟨⟨m, r⟩, hu, h⟩ := h
    split at h
    · simp only [Option.some.injEq, Prod.mk.injEq] at h
      have := length_unit hu
      simp only [List.length_cons, ← h.2]
      omega
    · simp at h
  · simp at h

/-- Whether an escaped pair that begins after a high surrogate is malformed: it
has its `\\u` and six more characters, but no four hexadecimal digits. -/
def brokenPair : List Char → Bool
  | '\\' :: 'u' :: a :: b :: c :: d :: _ :: _ =>
    !([a, b, c, d].all fun x => (Text.hexValue? x).isSome)
  | _ => false

/-- Reads the body of a string literal up to its closing quote: the text and what
follows the quote. A fault comes with the number of characters from the place it
is found at to the end; a literal that does not end has none, since it is reported
where it starts. -/
def decode (cs : List Char) : Except (Fault × Nat) (List Char × List Char) :=
  match cs with
  | [] => .error (.unterminated, 0)
  | '"' :: rest => .ok ([], rest)
  | ['\\'] => .error (.unterminated, 0)
  | '\\' :: 'u' :: rest =>
    match h : unit? rest with
    | none => .error (.unit, rest.length + 1)
    | some (n, rest') =>
      if 0xD800 ≤ n ∧ n < 0xDC00 then
        match h' : lowSurrogate? rest' with
        | some (m, rest'') =>
          (decode rest'').map fun r =>
            (Char.ofNat (0x10000 + (n - 0xD800) * 0x400 + (m - 0xDC00)) :: r.1, r.2)
        | none =>
          if brokenPair rest' then .error (.unit, rest'.length - 1)
          else (decode rest').map fun r => ('\uFFFD' :: r.1, r.2)
      else
        (decode rest').map fun r =>
          ((if 0xDC00 ≤ n ∧ n < 0xE000 then '\uFFFD' else Char.ofNat n) :: r.1, r.2)
  | '\\' :: c :: rest =>
    match unescape? c with
    | some d => (decode rest).map fun r => (d :: r.1, r.2)
    | none => .error (.escape, rest.length + 2)
  | c :: rest =>
    if c.toNat < 32 then .error (.control, rest.length + 1)
    else (decode rest).map fun r => (c :: r.1, r.2)
termination_by cs.length
decreasing_by
  · exact Nat.lt_trans (length_lowSurrogate h') (length_unit_lt h)
  · exact length_unit_lt h
  · exact length_unit_lt h
  · exact Nat.lt_add_right 1 (Nat.lt_succ_self rest.length)
  · exact Nat.lt_succ_self rest.length

end Covenant.JsonText
