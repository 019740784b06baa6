import Covenant.Fault

/-!
The journal, and work that keeps it.

An entry says what a part of the library did or why it failed, and what the work was
about: the template and the file being read. An entry about a fault names the file of
the fault. Entries are shown as lines or as values.

Operations of a template share a session: the identifiers issued so far, what the work
is about, and the entries of the journal. Work acts on a state and on the session and
may fail; what it did before it failed stays done.
-/

namespace Covenant.Journal

/-! ### Severity -/

/-- How much an entry matters. -/
inductive Severity where
  | debug
  | info
  | warning
  | error
  | critical
deriving DecidableEq, Repr, Inhabited

namespace Severity

def weight : Severity → Nat
  | .debug => 10
  | .info => 20
  | .warning => 30
  | .error => 40
  | .critical => 50

def name : Severity → String
  | .debug => "DEBUG"
  | .info => "INFO"
  | .warning => "WARNING"
  | .error => "ERROR"
  | .critical => "CRITICAL"

/-- The severities by their names and short names. -/
def names : List (String × Severity) :=
  [("DEBUG", .debug), ("INFO", .info), ("WARNING", .warning), ("WARN", .warning),
    ("ERROR", .error), ("CRITICAL", .critical), ("FATAL", .critical)]

def ofName? (name : String) : Option Severity :=
  names.lookup name

end Severity

/-! ### Thresholds -/

/-- The weight from which on entries are kept. None is set by zero, which stands for
warnings. -/
structure Threshold where
  weight : Int
deriving DecidableEq, Repr

namespace Threshold

/-- The threshold given by the name of a severity, in any case. -/
def ofName? (name : String) : Option Threshold :=
  let name := name.map Char.toUpper
  if name = "NOTSET" then some ⟨0⟩
  else (Severity.ofName? name).map fun s => ⟨s.weight⟩

/-- Whether an entry of this severity is kept. -/
def admits (t : Threshold) (s : Severity) : Bool :=
  decide ((if t.weight = 0 then (Severity.weight .warning : Int) else t.weight) ≤ s.weight)

end Threshold

/-! ### Entries -/

/-- What work is about: a template and a file. -/
structure Scope where
  template : Option String := none
  source : Option String := none
deriving DecidableEq, Repr, Inhabited

/-- The scope of a template; a template without a name is none. -/
def Scope.of (template : Option String) (source : Option String := none) : Scope :=
  { template := template.filter fun t => t != "", source }

/-- An entry: its severity, the part of the library it comes from, what it says, what
the work was about, and the fault it is about. -/
structure Entry where
  severity : Severity
  part : String
  message : String
  scope : Scope := {}
  report : Option Fault.Report := none

namespace Entry

/-- The full name of the part that an entry comes from. -/
def logger (e : Entry) : String :=
  "clausegram." ++ e.part

/-- The template that an entry is about, or a dash. -/
def template (e : Entry) : String :=
  e.scope.template.getD "-"

/-- The file that an entry is about: that of its fault, if it has one. -/
def source? (e : Entry) : Option String :=
  match e.report.bind fun r => r.file.filter fun f => f != "" with
  | some file => some file
  | none => e.scope.source

/-- What an entry is about: the template, the file, and the place of its fault. -/
def place (e : Entry) : String :=
  match e.source?.filter fun f => f != "" with
  | none => e.template
  | some file =>
    e.template ++ " " ++ file ++
      match e.report.bind Fault.Report.span with
      | some s => ":" ++ toString s.line ++ ":" ++ toString s.column
      | none => ""

def text (e : Entry) : String :=
  e.severity.name ++ "".pushn ' ' (7 - e.severity.name.length) ++ " [" ++ e.place ++ "] "
    ++ e.logger ++ ": " ++ e.message

def toValue (e : Entry) : Value :=
  .object ([("level", .text e.severity.name), ("logger", .text e.logger),
      ("message", .text e.message), ("template_id", .text e.template),
      ("source_name", .ofText? e.source?)]
    ++ (e.report.map fun r => ("error", r.toValue)).toList)

end Entry

end Covenant.Journal

namespace Covenant

/-! ### Work -/

/-- What operations share. -/
structure Session where
  issued : Nat := 0
  scope : Journal.Scope := {}
  entries : List Journal.Entry := []
deriving Inhabited

abbrev Work (σ : Type) := ExceptT Fault (StateM (σ × Session))

namespace Work

variable {σ τ α : Type}

/-- Does the work on a state: the result, the state and the session afterwards. -/
def run (w : Work σ α) (state : σ) (session : Session) : Outcome α × σ × Session :=
  Id.run (StateT.run (ExceptT.run w) (state, session))

def mk (f : σ → Session → Outcome α × σ × Session) : Work σ α :=
  ExceptT.mk fun s => f s.1 s.2

def ofOutcome (o : Outcome α) : Work σ α :=
  mk fun state session => (o, state, session)

def state : Work σ σ :=
  mk fun state session => (.ok state, state, session)

def put (state : σ) : Work σ Unit :=
  mk fun _ session => (.ok (), state, session)

def change (f : σ → σ) : Work σ Unit :=
  mk fun state session => (.ok (), f state, session)

def zoom (part : σ → τ) (withPart : τ → σ → σ) (w : Work τ α) : Work σ α :=
  mk fun state session =>
    let (o, t, session) := w.run (part state) session
    (o, withPart t state, session)

def note (severity : Journal.Severity) (part message : String)
    (report : Option Fault.Report := none) : Work σ Unit :=
  mk fun state session =>
    (.ok (), state, { session with
      entries := session.entries ++ [⟨severity, part, message, session.scope, report⟩] })

/-- Does work that is about something else than the work around it. -/
def within (scope : Journal.Scope) (w : Work σ α) : Work σ α :=
  mk fun state session =>
    let (o, state, inner) := w.run state { session with scope }
    (o, state, { inner with scope := session.scope })

/-- Does work whose fault is entered in the journal, if it is one that the library
reports. -/
def noteFault (part lead : String) (w : Work σ α) : Work σ α :=
  tryCatch w fun f => do
    match f.report? with
    | some r => note .error part (lead ++ r.text) (some r)
    | none => pure ()
    throw f

/-- Does work that issues identifiers, given how many have been issued. -/
def issuing (f : Nat → Outcome α × Nat) : Work σ α :=
  mk fun state session =>
    let (o, issued) := f session.issued
    (o, state, { session with issued })

end Work

end Covenant
