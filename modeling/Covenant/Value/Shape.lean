import Covenant.Value.Basic

/-!
Reading typed data out of values.

A reading either succeeds or reports every misfit it found, in the order of the
declared fields. Each misfit carries the path to the offending part: the names of
fields and the indexes of items. `Checked.join` joins readings of independent
parts, so the misfits of both are kept.
-/

namespace Covenant.Shape

/-- Why a part of a value does not fit. -/
inductive Issue where
  | missing
  | notText
  | notList
  | notDictionary
  | notInstance (record : String)
  | notBool
  | unclearBool
  | notOneOf (words : List String)
  | refused (reason : String)
deriving DecidableEq, Repr

/-- Words in single quotes, the last after "or". -/
def alternatives : List String → String
  | [] => ""
  | [w] => "'" ++ w ++ "'"
  | [v, w] => "'" ++ v ++ "' or '" ++ w ++ "'"
  | w :: ws => "'" ++ w ++ "', " ++ alternatives ws

def Issue.message : Issue → String
  | .missing => "Field required"
  | .notText => "Input should be a valid string"
  | .notList => "Input should be a valid list"
  | .notDictionary => "Input should be a valid dictionary"
  | .notInstance record => "Input should be a valid dictionary or instance of " ++ record
  | .notBool => "Input should be a valid boolean"
  | .unclearBool => "Input should be a valid boolean, unable to interpret input"
  | .notOneOf words => "Input should be " ++ alternatives words
  | .refused reason => "Value error, " ++ reason

/-- An issue and the path to the part it is about. -/
structure Misfit where
  path : List String
  issue : Issue
deriving DecidableEq, Repr

def Misfit.location (m : Misfit) : String :=
  ".".intercalate m.path

/-- The result of a reading: what was read, or all misfits. -/
abbrev Checked (α : Type) := Except (List Misfit) α

namespace Checked

variable {α β : Type}

def fail (issue : Issue) : Checked α :=
  .error [⟨[], issue⟩]

/-- Applies a reading of the first parts to a reading of the next one; misfits of
both are kept in this order. -/
def join (f : Checked (α → β)) (x : Checked α) : Checked β :=
  match f, x with
  | .ok f, .ok x => .ok (f x)
  | .ok _, .error e => .error e
  | .error e, .ok _ => .error e
  | .error e, .error e' => .error (e ++ e')

/-- Puts a step in front of the paths of all misfits. -/
def under (step : String) (x : Checked α) : Checked α :=
  x.mapError (List.map fun m => { m with path := step :: m.path })

/-- Refuses what was read for the reason given, if any. -/
def refuse (reason : α → Option String) (x : Checked α) : Checked α :=
  x.bind fun a =>
    match reason a with
    | some r => fail (.refused r)
    | none => .ok a

end Checked

/-! ### Readings of values -/

def text : Value → Checked String
  | .text s => .ok s
  | _ => .fail .notText

def orNull {α : Type} (read : Value → Checked α) : Value → Checked (Option α)
  | .null => .ok none
  | v => (read v).map some

/-- A truth value, also written as one, zero or a word. -/
def truth : Value → Checked Bool
  | .bool b => .ok b
  | .int n =>
    if n = 0 then .ok false else if n = 1 then .ok true else .fail .unclearBool
  | .double x =>
    if x == 0.0 then .ok false else if x == 1.0 then .ok true else .fail .unclearBool
  | .text s =>
    let w := Text.lower s
    if ["0", "off", "f", "false", "n", "no"].contains w then .ok false
    else if ["1", "on", "t", "true", "y", "yes"].contains w then .ok true
    else .fail .unclearBool
  | _ => .fail .notBool

def oneOf {α : Type} (words : List (String × α)) : Value → Checked α
  | .text s =>
    match words.lookup s with
    | some a => .ok a
    | none => .fail (.notOneOf (words.map Prod.fst))
  | _ => .fail (.notOneOf (words.map Prod.fst))

/-- Items from index `i` on. -/
def itemsFrom {α : Type} (read : Value → Checked α) : Nat → List Value → Checked (List α)
  | _, [] => .ok []
  | i, v :: vs =>
    .join (.under (toString i) ((read v).map List.cons)) (itemsFrom read (i + 1) vs)

def items {α : Type} (read : Value → Checked α) : Value → Checked (List α)
  | .list vs => itemsFrom read 0 vs
  | _ => .fail .notList

def entriesOf {α : Type} (read : Value → Checked α) : List (String × Value) → Checked (Table α)
  | [] => .ok []
  | (k, v) :: fs =>
    .join (.under k ((read v).map fun a rest => (k, a) :: rest)) (entriesOf read fs)

def entries {α : Type} (read : Value → Checked α) : Value → Checked (Table α)
  | .object fs => entriesOf read fs
  | _ => .fail .notDictionary

def dictionary : Value → Checked Value
  | .object fs => .ok (.object fs)
  | _ => .fail .notDictionary

/-- The entries of an object that has the fields of `record`. -/
def record (name : String) : Value → Checked (List (String × Value))
  | .object fs => .ok fs
  | _ => .fail (.notInstance name)

def field {α : Type} (fields : List (String × Value)) (name : String)
    (read : Value → Checked α) : Checked α :=
  match Table.find? fields name with
  | some v => .under name (read v)
  | none => .under name (.fail .missing)

def fieldOr {α : Type} (fields : List (String × Value)) (name : String) (default : α)
    (read : Value → Checked α) : Checked α :=
  match Table.find? fields name with
  | some v => .under name (read v)
  | none => .ok default

end Covenant.Shape
