import Covenant.Grammar.Action
import Covenant.Grammar.Source.Writer

/-!
Reading texts by a grammar.

A grammar is a complete rule set that can be used for reading: no literal is empty,
every pattern can stand between slashes, no rule has the same alternative twice, and every
pattern that the start rule reaches is a regular expression that matches some character. A text is read iff it has exactly
one derivation from the start rule, and its value is the value of that derivation.
-/

namespace Covenant

namespace RuleSet

/-- The rules reached from the names in `pending`. Each round adds a name, so as many
rounds as there are rules are enough. -/
def reach (s : RuleSet) : Nat → List String → List String → List String
  | 0, seen, _ => seen
  | _ + 1, seen, [] => seen
  | fuel + 1, seen, name :: pending =>
    if seen.contains name then s.reach fuel seen pending
    else s.reach fuel (seen ++ [name]) (pending ++ ((s.find? name).map Rule.references).getD [])

/-- The names of the rules that the start rule reaches. -/
def reachable (s : RuleSet) : List String :=
  let steps := s.rules.foldr (fun r n => r.references.length + 1 + n) 1
  s.reach steps [] s.start.toList

def symbolsOf (r : Rule) (kind : SymbolKind) : List Symbol :=
  r.alternatives.flatten.filter fun s => s.kind == kind

/-- Whether a pattern is a regular expression that cannot match nothing. -/
def usablePattern (s : Symbol) : Bool :=
  match Pattern.ofChars? s.regex with
  | some p => !p.mayBeEmpty
  | none => false

/-- Whether a name consists of the characters that names in grammar source are made
of. -/
def plainName (name : String) : Bool :=
  name.toList.all fun c => c.isAlphanum || c == '_' || c == '.' || c == '$'

/-- Whether texts can be read by a complete rule set. -/
def usable (s : RuleSet) : Bool :=
  let reached := s.reachable
  s.rules.all fun r =>
    plainName r.name
      && (symbolsOf r .literal ++ symbolsOf r .pattern).all (fun t => t.value != "")
      && (symbolsOf r .pattern).all (fun t => (Slashed.respell? t.value.toList).isSome)
      && decide r.alternatives.Nodup
      && (!reached.contains r.name || (symbolsOf r .pattern).all usablePattern)

end RuleSet

/-- A rule set by which texts are read, and the source it was read from, if any. -/
structure Grammar where
  rules : RuleSet
  source : Option String := none
deriving Inhabited

namespace Grammar

def ofRules (rules : RuleSet) (source : Option String := none) : Outcome Grammar := do
  rules.check
  if rules.usable then return ⟨rules, source⟩
  else .fail (.grammar .notCompilable)

/-- The derivations of a text from the start rule: none, one or several. -/
def derive (g : Grammar) (text : String) : Verdict Goal Terminal :=
  g.rules.cfg.read (.rule (g.rules.start.getD "")) text.toList

/-- Texts in order, each once. -/
def sortUnique (xs : List String) : List String :=
  (xs.mergeSort fun a b => a ≤ b).eraseDups

def unreadable (cs : List Char) (furthest : Nat) (expected : List String) : Fault :=
  let expected := sortUnique expected
  { cause := .reading (match cs[furthest]? with
      | some c => .unexpectedCharacter c expected
      | none => .unexpectedEnd expected)
    span := some (.at (Text.Position.of cs furthest)) }

def parse (g : Grammar) (text : String) (file : Option String := none) : Outcome Derivation :=
  match g.derive text with
  | .one t => .ok t.derivation
  | .several => .error { cause := .ambiguous, file }
  | .none furthest expected =>
    .error ((unreadable text.toList furthest (expected.map fun t => t.symbol.body)).inFile file)

def read (g : Grammar) (text : String) (ctx : ReadingContext := {})
    (file : Option String := none) : Outcome Value := do
  let d ← g.parse text file
  d.evaluate g.rules ctx

end Grammar

/-- A reader of one text that is given in pieces. Once it has finished it takes no
more. -/
structure Reader where
  grammar : Grammar
  pieces : List String := []
  finished : Bool := false
  results : List Value := []
deriving Inhabited

namespace Reader

def feed (r : Reader) (text : String) : Outcome Reader :=
  if r.finished then .fail (.state .finished) else .ok { r with pieces := r.pieces ++ [text] }

def text (r : Reader) : String :=
  String.join r.pieces

/-- Reads the text given so far. The reader has finished afterwards, whether or not
the text could be read. -/
def finish (r : Reader) (ctx : ReadingContext := {}) (file : Option String := none) :
    Outcome Value × Reader :=
  if r.finished then (.fail (.state .finished), r)
  else
    match r.grammar.read r.text ctx file with
    | .ok v => (.ok v, { r with finished := true, results := [v] })
    | .error f => (.error f, { r with finished := true })

def read (r : Reader) (text : String) (ctx : ReadingContext := {})
    (file : Option String := none) : Outcome Value × Reader :=
  match r.feed text with
  | .ok r => r.finish ctx file
  | .error f => (.error f, r)

end Reader

end Covenant
