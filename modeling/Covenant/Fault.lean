import Covenant.Value.Json
import Covenant.Value.Shape

/-!
What can go wrong.

A fault is a cause with the file and the span of text it was found in, where they
are known. Causes are grouped by the part of the library that reports them; the
wording of each is given by its `message`. A `Report` is a fault as it is shown:
its kind, its wording and its place.
-/

namespace Covenant

/-- A span of text: its first line and column, from one, and its end if known. -/
structure Span where
  line : Nat
  column : Nat
  stop : Option (Nat × Nat) := none
deriving DecidableEq, Repr

def Span.at (p : Text.Position) : Span :=
  ⟨p.line, p.column, none⟩

namespace Fault

/-! ### Causes -/

/-- Causes found in sets of grammar rules and in grammar source. -/
inductive Grammar where
  | duplicateRule (name : String)
  | noAlternatives (name : String)
  | emptyAlternative (name : String)
  | undefinedRule (name : String)
  | noStart
  | undefinedStart (name : String)
  | danglingReference (rule target : String)
  | actionReference (rule target : String)
  | actionPosition (rule : String) (position : Int)
  | malformed
  | malformedLiteral (fault : Json.Fault)
  | notCompilable
  | unknownAction (name : String)
deriving DecidableEq, Repr

def Grammar.message : Grammar → String
  | .duplicateRule name => "Rule " ++ name ++ " is defined more than once"
  | .noAlternatives name => "Rule " ++ name ++ " has no alternatives"
  | .emptyAlternative name => "Rule " ++ name ++ " has an empty alternative"
  | .undefinedRule name => "Rule " ++ name ++ " is not defined"
  | .noStart => "Grammar has no start rule"
  | .undefinedStart name => "Start rule " ++ name ++ " is not defined"
  | .danglingReference rule target =>
    "Rule " ++ rule ++ " references undefined rule " ++ target
  | .actionReference rule target =>
    "Action of rule " ++ rule ++ " references " ++ target
      ++ " which does not appear in every alternative"
  | .actionPosition rule position =>
    "Action of rule " ++ rule ++ " references position " ++ toString position
      ++ " outside its alternative"
  | .malformed => "Malformed grammar source"
  | .malformedLiteral fault => "Malformed grammar source: " ++ fault.message
  | .notCompilable => "Grammar could not be compiled"
  | .unknownAction name => "Unknown action " ++ name

/-- Causes found where a template does not fit its schema. -/
inductive Structure where
  | undeclaredProperty (property type : String)
  | notBoolean (property type : String)
  | notComplex (block property type : String)
  | notConcrete (block property type : String)
  | notArray (property type : String)
  | emptyIf (property : String)
  | sameBranches (property : String)
  | unformattable (type : String)
  | unknownNode (name : String)
  | emptyLevel (type : String)
  | clash (rule : String)
  | rule (cause : Grammar)
  | missingValue (property : String)
deriving DecidableEq, Repr

/-- The wording of a misfit between template and schema. -/
def Structure.message : Structure → String
  | .undeclaredProperty property type =>
    "Template references a property '" ++ property ++ "' that is not declared "
      ++ "in the template model '" ++ type ++ "'"
  | .notBoolean property type =>
    "An if block can only be used with a boolean property. Property " ++ property
      ++ " has type " ++ type
  | .notComplex block property type =>
    "A " ++ block ++ " block can only be used with a complex property. Property "
      ++ property ++ " has type " ++ type
  | .notConcrete block property type =>
    "A " ++ block ++ " block can only be used with a concrete complex property. Property "
      ++ property ++ " has type " ++ type
  | .notArray property type =>
    "A list block can only be used with an array property. Property " ++ property
      ++ " has type " ++ type
  | .emptyIf property => "The if block for " ++ property ++ " contains no text"
  | .sameBranches property =>
    "The if and else branches for " ++ property ++ " must contain different text"
  | .unformattable type =>
    "Formatted types are not currently supported for " ++ type ++ " properties."
  | .unknownNode name => "Unrecognized node type " ++ name
  | .emptyLevel type => "Template for " ++ type ++ " contains no text or bindings"
  | .clash name => "Template rule " ++ name ++ " clashes with the rule for type " ++ name
  | .rule cause => cause.message
  | .missingValue property => "Missing value for required property '" ++ property ++ "'"

/-- Causes found in the formats of dates and amounts and in values given to them. -/
inductive Format where
  | emptyDate
  | unterminatedLiteral (format : String)
  | noDateFields (format : String)
  | notDate (value : String)
  | amount (format : String)
  | sameSeparators (format : String)
  | placeholders (format : String)
  | noSymbol (currency format : String)
  | unformattable (type : String)
deriving DecidableEq, Repr

def Format.message : Format → String
  | .emptyDate => "Date format cannot be empty"
  | .unterminatedLiteral format => "Unterminated literal in date format '" ++ format ++ "'"
  | .noDateFields format => "Date format '" ++ format ++ "' contains no date or time fields"
  | .notDate value => "Value '" ++ value ++ "' is not an ISO-8601 date"
  | .amount format => "Invalid amount format '" ++ format ++ "'"
  | .sameSeparators format =>
    "Amount format '" ++ format ++ "' uses the same thousands and decimal separator"
  | .placeholders format =>
    "Monetary format '" ++ format ++ "' must contain exactly one CCC or K placeholder"
  | .noSymbol currency format =>
    "Currency " ++ currency ++ " has no symbol for format '" ++ format ++ "'"
  | .unformattable type =>
    "Formatted types are not currently supported for " ++ type ++ " properties."

/-- Why the fields of a date name no moment. -/
inductive BadMoment where
  | day
  | year (n : Nat)
deriving DecidableEq, Repr

def BadMoment.message : BadMoment → String
  | .day => "day is out of range for month"
  | .year n => "year " ++ toString n ++ " is out of range"

/-- Causes found in a text that has no reading. -/
inductive Reading where
  | unexpectedCharacter (c : Char) (expected : List String)
  | unexpectedEnd (expected : List String)
  | malformedMarkup (fault : Json.Fault)
  | date (text format : String)
  | moment (text format : String) (why : BadMoment)
  | amount (text format : String)
  | monetary (text format : String)
deriving DecidableEq, Repr

def Reading.message : Reading → String
  | .unexpectedCharacter c _ => "Unexpected character " ++ Text.Quoted.quote (toString c)
  | .unexpectedEnd _ => "Unexpected end of text"
  | .malformedMarkup fault => "Malformed template markup: " ++ fault.message
  | .date text format => "Text '" ++ text ++ "' does not match date format '" ++ format ++ "'"
  | .moment text format why =>
    "Invalid date '" ++ text ++ "' for format '" ++ format ++ "': " ++ why.message
  | .amount text format =>
    "Text '" ++ text ++ "' does not match amount format '" ++ format ++ "'"
  | .monetary text format =>
    "Text '" ++ text ++ "' does not match monetary format '" ++ format ++ "'"

/-- What could have stood where a text has no reading. -/
def Reading.expected : Reading → List String
  | .unexpectedCharacter _ expected | .unexpectedEnd expected => expected
  | _ => []

/-- Operations asked for before their time. -/
inductive State where
  | finished
  | noGrammar
  | noMarkup (file : String)
  | noDraft
  | noData
deriving DecidableEq, Repr

/-- The wording of an operation asked for before its time. -/
def State.message : State → String
  | .finished => "Parser has already finished; create a new parser for new input"
  | .noGrammar => "Must call set_grammar or build_grammar before calling get_parser"
  | .noMarkup file => "Template has no " ++ file ++ " to build a grammar from"
  | .noDraft => "Drafting requires a grammar built from template markup"
  | .noData => "Data has not been set. Call set_data or parse before calling this method."

/-- Causes found in model files and in questions about declared types. -/
inductive Model where
  | notJson (issue : Json.Issue)
  | misfits (found : List Shape.Misfit)
  | reserved (ns : String)
  | duplicate (ns : String)
  | undeclared (name place : String)
  | circular (type : String) (chain : List String)
  | redeclared (type : String) (properties : List String)
  | identifiers (type : String) (properties : List String)
  | unknownType (name : String)
  | unknownNamespace (ns : String)
  | noTemplateType (base : String)
  | manyTemplateTypes (base : String) (found : List String)
  | noSubtypes (type : String)
deriving DecidableEq, Repr

def Model.message : Model → String
  | .notJson issue => "Model file is not valid JSON: " ++ issue.message
  | .misfits _ => "Invalid model file"
  | .reserved ns => "Namespace " ++ ns ++ " is reserved for system models"
  | .duplicate ns => "Namespace " ++ ns ++ " is already declared"
  | .undeclared name place => "Undeclared type " ++ name ++ " in " ++ place
  | .circular type chain =>
    "Type " ++ type ++ " has a circular inheritance chain: " ++ Text.Quoted.quoteAll chain
  | .redeclared type properties =>
    "Type " ++ type ++ " redeclares inherited properties: " ++ Text.Quoted.quoteAll properties
  | .identifiers type properties =>
    "Type " ++ type ++ " declares more than one identifier property: "
      ++ Text.Quoted.quoteAll properties
  | .unknownType name => "Type " ++ name ++ " is not declared"
  | .unknownNamespace ns => "Namespace " ++ ns ++ " is not declared"
  | .noTemplateType base => "Failed to find an asset that extends " ++ base ++ "."
  | .manyTemplateTypes base found =>
    "Found multiple instances of " ++ base
      ++ ". The model for the template must contain a single asset that extends " ++ base
      ++ ". Found: " ++ ", ".intercalate found
  | .noSubtypes type => "Abstract type " ++ type ++ " has no concrete subtypes"

/-- What a check finds in the files of a package. -/
inductive Finding where
  | noPackage
  | noSamples
  | locale (file : String)
  | undeclaredLogic (file : String)
  | otherLogic (file runtime language : String)
  | noRequest
deriving DecidableEq, Repr

def Finding.message : Finding → String
  | .noPackage => "Failed to find package.json"
  | .noSamples => "Failed to find any sample files. e.g. sample.txt, sample_fr.txt"
  | .locale file =>
    "Invalid locale used in sample file, " ++ file
      ++ ". Locales should be IETF language tags, e.g. sample_fr.txt"
  | .undeclaredLogic file => "Template declares no runtime but contains logic file " ++ file
  | .otherLogic file runtime language =>
    "Template runtime is '" ++ runtime ++ "' but logic file " ++ file ++ " is written in '"
      ++ language ++ "'"
  | .noRequest => "Template has no request.json"

/-- Causes found while a template package is put together. -/
inductive Package where
  | emptyScript
  | misfit (found : Shape.Misfit)
  | notText
  | notArchive
  | notTextEntry
  | notJson (issue : Json.Issue)
  | sampleRequired
  | check (found : Finding)
deriving DecidableEq, Repr

/-- The wording of a cause found in a package. A misfit that a rule of its own
refused is told by that rule alone, any other with its path. -/
def Package.message : Package → String
  | .emptyScript => "Empty script contents"
  | .misfit ⟨_, .refused reason⟩ => reason
  | .misfit ⟨[], issue⟩ => issue.message
  | .misfit m => m.location ++ ": " ++ m.issue.message
  | .notText => "File is not UTF-8 text"
  | .notArchive => "Invalid template archive"
  | .notTextEntry => "Template archive contains a file that is not UTF-8 text"
  | .notJson issue => "Invalid JSON: " ++ issue.message
  | .sampleRequired => "sample.txt is required"
  | .check found => found.message

/-- Data that is not an instance of a type. -/
inductive Validity where
  | nonconforming (type : String) (errors : List String)
  | notInstance (type : String) (data : Value)

def Validity.message : Validity → String
  | .nonconforming type errors =>
    "Instance does not conform to " ++ type ++ ": " ++ errors.headD ""
  | .notInstance type data =>
    "Invalid data, must be a valid instance of the template model " ++ type
      ++ " but got: " ++ Json.spaced data

def Validity.errors : Validity → List String
  | .nonconforming _ errors => errors
  | .notInstance _ _ => []

/-- Output that cannot be made. -/
inductive Output where
  | format (name : String)
  | options (issue : Shape.Issue)
deriving DecidableEq, Repr

def Output.message : Output → String
  | .format name => "Unsupported format: " ++ name
  | .options issue => "Invalid draft options: " ++ issue.message

/-- Arguments that an operation refuses. -/
inductive Argument where
  | noLanguage
  | unknownLanguage (name : String)
  | javascriptToErgo
  | otherLanguage (runtime language : String)
  | abstractInstance
deriving DecidableEq, Repr

def Argument.message : Argument → String
  | .noLanguage => "language is required and must be a string"
  | .unknownLanguage name =>
    "language should be either 'ergo' or 'javascript' but is '" ++ name ++ "'"
  | .javascriptToErgo => "Cannot export JavaScript archive to Ergo"
  | .otherLanguage runtime language =>
    "Cannot export " ++ runtime ++ " logic to " ++ language
      ++ "; export with include_logic=False"
  | .abstractInstance => "Abstract class \"TemplateInstance\" cannot be instantiated directly."

/-- Everything that can go wrong. `undefined` stands for an operation that has no
meaning on the values it is given. -/
inductive Cause where
  | grammar (c : Grammar)
  | structural (c : Structure)
  | format (c : Format)
  | reading (c : Reading)
  | ambiguous
  | state (c : State)
  | model (c : Model)
  | package (c : Package)
  | validity (c : Validity)
  | output (c : Output)
  | argument (c : Argument)
  | shape (found : List Shape.Misfit)
  | json (fault : Json.Fault)
  | undefined

end Fault

/-- A cause with the file and span it was found in. -/
structure Fault where
  cause : Fault.Cause
  file : Option String := none
  span : Option Span := none

namespace Fault

/-! ### Kinds and reports -/

/-- Kinds of reported faults. -/
inductive Kind where
  | general
  | structural
  | format
  | grammar
  | state
  | reading
  | ambiguous
  | validity
  | output
  | model
  | package
deriving DecidableEq, Repr

def Kind.names : List (String × Kind) :=
  [("ClausegramError", .general), ("StructuralError", .structural), ("FormatError", .format),
    ("GrammarSyntaxError", .grammar), ("IllegalStateError", .state), ("ParseFailure", .reading),
    ("AmbiguousParse", .ambiguous), ("ValidationError", .validity),
    ("UnsupportedFormatError", .output), ("ModelError", .model), ("TemplateLoadError", .package)]

def Kind.name (k : Kind) : String :=
  ((names.find? fun e => e.2 == k).map Prod.fst).getD ""

/-- A format that cannot be understood is one way in which a template does not
fit its schema. -/
def Kind.isStructural : Kind → Bool
  | .structural | .format => true
  | _ => false

/-- The kind of a cause; causes outside the library's own report have none. -/
def Cause.kind? : Cause → Option Kind
  | .grammar _ => some .grammar
  | .structural _ => some .structural
  | .format _ => some .format
  | .reading _ => some .reading
  | .ambiguous => some .ambiguous
  | .state _ => some .state
  | .model _ => some .model
  | .package _ => some .package
  | .validity _ => some .validity
  | .output _ => some .output
  | .argument _ | .shape _ | .json _ | .undefined => none

def Cause.message : Cause → String
  | .grammar c => c.message
  | .structural c => c.message
  | .format c => c.message
  | .reading c => c.message
  | .ambiguous => "Ambiguous text"
  | .state c => c.message
  | .model c => c.message
  | .package c => c.message
  | .validity c => c.message
  | .output c => c.message
  | .argument c => c.message
  | .shape _ => ""
  | .json fault => fault.message
  | .undefined => ""

/-- A fault as it is shown. -/
structure Report where
  kind : Kind
  message : String
  file : Option String := none
  span : Option Span := none
  expected : List String := []
  errors : List String := []
  data : Value := .null

/-- The wording with the file and the line, where they are known. -/
def Report.text (r : Report) : String :=
  if r.file.isNone && r.span.isNone then r.message
  else
    let file := match r.file with
      | some f => if f.isEmpty then [] else ["file " ++ f]
      | none => []
    let place := match r.span with
      | some s => ["line " ++ toString s.line ++ " col " ++ toString s.column]
      | none => []
    r.message ++ " (at " ++ " ".intercalate (file ++ place) ++ ")"

/-- A span as data; without a known end it ends where it starts. -/
def spanValue (s : Span) : Value :=
  let point (line column : Nat) : Value := .object [("line", .int line), ("column", .int column)]
  let stop := s.stop.getD (s.line, s.column)
  .object [("start", point s.line s.column), ("end", point stop.1 stop.2)]

def Report.toValue (r : Report) : Value :=
  let common : List (String × Value) :=
    [("error_type", .text r.kind.name), ("message", .text r.message),
      ("file_name", .ofText? r.file), ("location", .ofOption (r.span.map spanValue))]
  .object (common ++
    if r.kind = .validity then [("data", r.data), ("errors", .texts r.errors)] else [])

/-- The report of a fault, if the library reports it. -/
def report? (f : Fault) : Option Report :=
  f.cause.kind?.map fun kind =>
    { kind, message := f.cause.message, file := f.file, span := f.span
      expected := match f.cause with
        | .reading c => c.expected
        | _ => []
      errors := match f.cause with
        | .validity c => c.errors
        | _ => [] }

def inFile (f : Fault) (file : Option String) : Fault :=
  { f with file }

end Fault

abbrev Outcome (α : Type) := Except Fault α

namespace Outcome

def fail {α : Type} (cause : Fault.Cause) : Outcome α :=
  .error { cause }

/-- A result that is there, or the fault of an undefined operation. -/
def ofOption {α : Type} : Option α → Outcome α
  | some a => .ok a
  | none => fail .undefined

end Outcome

end Covenant
