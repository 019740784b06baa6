import Covenant.Grammar.RuleSet
import Covenant.Grammar.Source.Slashed
import Covenant.Grammar.Source.Token

/-!
Reading grammar source.

Source is a sequence of lines: directives, rules and comments. The first token that
no line can continue with is the fault of the whole. After that the string literals
are decoded, in order, then the rules are collected, each name once, and last the
set is checked for completeness.
-/

namespace Covenant.Source

/-- The reading of one part of a line: what was read and the tokens after it, or the
place at which it fails. -/
abbrev Partial (α : Type) := Except Nat (α × List Placed)

/-- A parameter as it stands in source. -/
inductive WrittenSource where
  | name (s : String)
  | literal (s : String)
  | number (n : Nat)
deriving Repr

/-- An action as it stands in source. -/
structure WrittenAction where
  name : String
  params : List (String × WrittenSource)
deriving Repr

/-- A symbol as it stands in source. -/
structure WrittenSymbol where
  kind : SymbolKind
  text : String
  cardinality : Cardinality
deriving Repr

/-- A line of source. The place of a rule is that of its name. -/
inductive Line where
  | blank
  | start (name : String)
  | expressions
  | rule (name : String) (left : Nat) (alternatives : List (List WrittenSymbol))
      (action : Option WrittenAction) (comment : Option String)
deriving Repr

/-- The place of the first token, or of the end of the line. -/
def placeOf (stop : Nat) : List Placed → Nat
  | [] => stop
  | t :: _ => t.left

/-- The symbol that a token writes, without its cardinality. -/
def symbolOf? : Token → Option (SymbolKind × String)
  | .name s => some (.rule, s)
  | .literal s => some (.literal, s)
  | .pattern body => some (.pattern, String.ofList (Slashed.decode body))
  | _ => none

def readSymbols : List Placed → List WrittenSymbol × List Placed
  | [] => ([], [])
  | t :: ts =>
    match symbolOf? t.token with
    | none => ([], t :: ts)
    | some (kind, text) =>
      match ts with
      | ⟨.mark c, _⟩ :: ts =>
        let (rest, ts) := readSymbols ts
        (⟨kind, text, c⟩ :: rest, ts)
      | ts =>
        let (rest, ts) := readSymbols ts
        (⟨kind, text, .one⟩ :: rest, ts)

theorem length_readSymbols (ts : List Placed) : (readSymbols ts).2.length ≤ ts.length := by
  fun_induction readSymbols ts <;> simp_all <;> omega

def readAlternatives (stop : Nat) (ts : List Placed) : Partial (List (List WrittenSymbol)) :=
  match h : readSymbols ts with
  | ([], ts) => .error (placeOf stop ts)
  | (symbols, ⟨.bar, _⟩ :: rest) =>
    have : rest.length < ts.length := by
      have := length_readSymbols ts
      rw [h] at this
      simp only [List.length_cons] at this
      omega
    (readAlternatives stop rest).map fun r => (symbols :: r.1, r.2)
  | (symbols, rest) => .ok ([symbols], rest)
termination_by ts.length

/-- The parameters of an action up to its closing mark. -/
def readParams (stop : Nat) : List Placed → Partial (List (String × WrittenSource))
  | ⟨.actionEnd, _⟩ :: ts => .ok ([], ts)
  | ⟨.name key, _⟩ :: ⟨.equals, _⟩ :: ⟨.name s, _⟩ :: ts =>
    (readParams stop ts).map fun r => ((key, .name s) :: r.1, r.2)
  | ⟨.name key, _⟩ :: ⟨.equals, _⟩ :: ⟨.literal s, _⟩ :: ts =>
    (readParams stop ts).map fun r => ((key, .literal s) :: r.1, r.2)
  | ⟨.name key, _⟩ :: ⟨.equals, _⟩ :: ⟨.number n, _⟩ :: ts =>
    (readParams stop ts).map fun r => ((key, .number n) :: r.1, r.2)
  | ⟨.name _, _⟩ :: ⟨.equals, _⟩ :: ts => .error (placeOf stop ts)
  | ⟨.name _, _⟩ :: ts => .error (placeOf stop ts)
  | ts => .error (placeOf stop ts)

/-- An action, if there is one. -/
def readAction (stop : Nat) : List Placed → Partial (Option WrittenAction)
  | ⟨.actionStart, _⟩ :: ⟨.name name, _⟩ :: ts =>
    (readParams stop ts).map fun r => (some ⟨name, r.1⟩, r.2)
  | ⟨.actionStart, _⟩ :: ts => .error (placeOf stop ts)
  | ts => .ok (none, ts)

/-- What is left of a rule after its action: at most a comment. -/
def readComment (stop : Nat) : List Placed → Except Nat (Option String)
  | [] => .ok none
  | [⟨.comment s, _⟩] =>
    let text := Text.strip s
    .ok (if text.isEmpty then none else some text)
  | ⟨.comment _, _⟩ :: ts => .error (placeOf stop ts)
  | ts => .error (placeOf stop ts)

/-- One line. `stop` is the place at which it ends. -/
def readLine (stop : Nat) : List Placed → Except Nat Line
  | [] => .ok .blank
  | [⟨.comment _, _⟩] => .ok .blank
  | ⟨.comment _, _⟩ :: ts => .error (placeOf stop ts)
  | [⟨.expressionsMark, _⟩] => .ok .expressions
  | ⟨.expressionsMark, _⟩ :: ts => .error (placeOf stop ts)
  | [⟨.startMark, _⟩, ⟨.name s, _⟩] => .ok (.start s)
  | ⟨.startMark, _⟩ :: ⟨.name _, _⟩ :: ts => .error (placeOf stop ts)
  | ⟨.startMark, _⟩ :: ts => .error (placeOf stop ts)
  | ⟨.name name, left⟩ :: ⟨.arrow, _⟩ :: ts => do
    let (alternatives, ts) ← readAlternatives stop ts
    let (action, ts) ← readAction stop ts
    let comment ← readComment stop ts
    return .rule name left alternatives action comment
  | ⟨.name _, _⟩ :: ts => .error (placeOf stop ts)
  | ts => .error (placeOf stop ts)

/-- All lines; `line` holds the tokens of the current one. -/
def readLines (line : List Placed) : List Placed → Except Nat (List Line)
  | [] => if line.isEmpty then .ok [] else (readLine 0 line).map fun l => [l]
  | t :: ts => do
    if t.token = .newline then
      let l ← readLine t.left line
      let ls ← readLines [] ts
      return l :: ls
    else readLines (line ++ [t]) ts

/-! ### From lines to rules -/

def decodeLiteral (s : String) : Except Fault.Cause String :=
  match Json.read s with
  | .ok (.text t) => .ok t
  | .ok _ => .error .undefined
  | .error f => .error (.grammar (.malformedLiteral f))

def WrittenSymbol.decode (w : WrittenSymbol) : Except Fault.Cause Symbol :=
  match w.kind with
  | .literal => (decodeLiteral w.text).map fun t => .literal t w.cardinality
  | kind => .ok ⟨kind, w.text, w.cardinality⟩

def decodeParam : String × WrittenSource → Except Fault.Cause ActionParam
  | (key, .name s) => .ok ⟨key, .ref s⟩
  | (key, .number n) => .ok ⟨key, .index n⟩
  | (key, .literal s) => (decodeLiteral s).map fun t => ⟨key, .const t⟩

def WrittenAction.decode (a : WrittenAction) : Except Fault.Cause Action := do
  let params ← a.params.mapM decodeParam
  return ⟨a.name, params⟩

/-- What a line says: a directive, or a rule with the place of its name. -/
inductive Item where
  | start (name : String)
  | expressions
  | rule (r : Rule) (left : Nat)

/-- What a line says, if anything. -/
def Line.decode : Line → Except Fault.Cause (Option Item)
  | .blank => .ok none
  | .start name => .ok (some (.start name))
  | .expressions => .ok (some .expressions)
  | .rule name left alternatives action comment => do
    let alternatives ← alternatives.mapM (·.mapM WrittenSymbol.decode)
    let action ← action.mapM WrittenAction.decode
    return some (.rule { name, alternatives, action, comment } left)

/-- Adds what one line says. A name that is taken is a fault at its place. -/
def addItem (s : RuleSet) : Item → Except (Fault.Cause × Nat) RuleSet
  | .start name => .ok { s with start := some name }
  | .expressions => .ok { s with expressions := true }
  | .rule r left =>
    match s.obstacle? r with
    | some c => .error (.grammar c, left)
    | none => .ok { s with rules := s.rules ++ [r] }

end Covenant.Source

namespace Covenant.RuleSet

def endLine (cs : List Char) : List Char :=
  if cs.getLast? = some '\n' then cs else cs ++ ['\n']

/-- Reads grammar source into a complete rule set. -/
def read (source : String) (file : Option String := none) : Outcome RuleSet :=
  let cs := endLine source.toList
  let place (left : Nat) : Span := .at (Text.Position.of cs (cs.length - left))
  match Source.readLines [] (Source.tokens (cs.length + 1) cs) with
  | .error left => .error { cause := .grammar .malformed, file, span := some (place left) }
  | .ok lines =>
    match lines.mapM Source.Line.decode with
    | .error cause => .error { cause, file }
    | .ok items =>
      match (items.filterMap id).foldlM Source.addItem {} with
      | .error (cause, left) => .error { cause, file, span := some (place left) }
      | .ok s =>
        match s.fault? with
        | some c => .error { cause := .grammar c, file }
        | none => .ok s

end Covenant.RuleSet
