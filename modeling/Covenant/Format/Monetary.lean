import Covenant.Format.Amount

/-!
Monetary formats.

A monetary format is an amount format with exactly one place for the currency before
or after the amount: `CCC` for its code, or `K` for its symbol.
-/

namespace Covenant

/-- How a currency is shown. -/
inductive CurrencyStyle where
  | code
  | symbol
deriving DecidableEq, Repr

namespace CurrencyStyle

def placeholder : CurrencyStyle → String
  | .code => "CCC"
  | .symbol => "K"

def regex : CurrencyStyle → String
  | .code => "[A-Z]\x7b3\x7d"
  | .symbol => "[\\$€£¥]"

end CurrencyStyle

def currencySymbols : List (String × String) :=
  [("$", "USD"), ("€", "EUR"), ("£", "GBP"), ("¥", "JPY")]

/-- A text around places for a currency: the piece before each place with its style,
and the last piece. -/
def splitCurrency (piece : List Char) : List Char → List (List Char × CurrencyStyle) × List Char
  | 'C' :: 'C' :: 'C' :: cs =>
    let (rest, last) := splitCurrency [] cs
    ((piece, .code) :: rest, last)
  | 'K' :: cs =>
    let (rest, last) := splitCurrency [] cs
    ((piece, .symbol) :: rest, last)
  | c :: cs => splitCurrency (piece ++ [c]) cs
  | [] => ([], piece)

/-- A monetary format: the text before the amount and after it, each with the place
for the currency if it is there. -/
structure MonetaryFormat where
  amount : AmountFormat
  style : CurrencyStyle
  before : List (List Char × CurrencyStyle) × List Char
  after : List (List Char × CurrencyStyle) × List Char
deriving DecidableEq, Repr

namespace MonetaryFormat

def ofString (format : String) : Outcome MonetaryFormat := do
  let amount ← AmountFormat.ofString format
  let before := splitCurrency [] amount.before
  let after := splitCurrency [] amount.after
  match before.1 ++ after.1 with
  | [(_, style)] => return ⟨amount, style, before, after⟩
  | _ => .fail (.format (.placeholders format))

/-- What a piece of text is made of: literal text, the currency or the amount. -/
inductive Piece where
  | literal (cs : List Char)
  | currency
  | amount
deriving DecidableEq, Repr

/-- The pieces of a text around places for the currency, without empty ones. -/
def pieces (parts : List (List Char × CurrencyStyle) × List Char) : List Piece :=
  let literal (cs : List Char) : List Piece := if cs.isEmpty then [] else [.literal cs]
  (parts.1.flatMap fun p => literal p.1 ++ [.currency]) ++ literal parts.2

/-- The pieces that a text of the format is made of. -/
def layout (f : MonetaryFormat) : List Piece :=
  pieces f.before ++ [.amount] ++ pieces f.after

def symbol (f : MonetaryFormat) : Piece → Symbol
  | .literal cs => .literal (String.ofList cs)
  | .currency => .pattern f.style.regex
  | .amount => f.amount.number

/-- The symbols that a text of the format is made of. -/
def symbols (f : MonetaryFormat) : List Symbol :=
  f.layout.map f.symbol

def pieceText (f : MonetaryFormat) (p : Piece) (texts : List (List Char)) : List Char :=
  (((f.layout.zip texts).find? fun x => x.1 == p).map Prod.snd).getD []

end MonetaryFormat

/-! ### Currencies as replacements -/

/-- A piece of a replacement: a character, or the text that is replaced. -/
inductive ReplacementPiece where
  | char (c : Char)
  | whole
deriving DecidableEq, Repr

/-- Reads a currency as a replacement: a backslash starts an escape of a control
character, of an octal code or of the replaced text `\g<0>`; other letters and digits
after it are refused, and any other character keeps its backslash. -/
def replacement? : List Char → Option (List ReplacementPiece)
  | [] => some []
  | ['\\'] => none
  | '\\' :: 'g' :: '<' :: '0' :: '>' :: cs => (replacement? cs).map (.whole :: ·)
  | '\\' :: '0' :: cs =>
    match cs with
    | d :: e :: rest =>
      if '0' ≤ d ∧ d ≤ '7' then
        if '0' ≤ e ∧ e ≤ '7' then
          (replacement? rest).map
            (.char (Char.ofNat (8 * (d.toNat - 48) + (e.toNat - 48))) :: ·)
        else (replacement? (e :: rest)).map (.char (Char.ofNat (d.toNat - 48)) :: ·)
      else (replacement? (d :: e :: rest)).map (.char (Char.ofNat 0) :: ·)
    | [d] =>
      if '0' ≤ d ∧ d ≤ '7' then some [.char (Char.ofNat (d.toNat - 48))]
      else some [.char (Char.ofNat 0), .char d]
    | [] => some [.char (Char.ofNat 0)]
  | '\\' :: c :: cs =>
    if c.isDigit then none
    else
      match Pattern.controlEscape? c with
      | some d => (replacement? cs).map (.char d :: ·)
      | none =>
        if c = 'b' then (replacement? cs).map (.char '\x08' :: ·)
        else if c = '\\' then (replacement? cs).map (.char '\\' :: ·)
        else if c.isAlpha then none
        else (replacement? cs).map fun ps => .char '\\' :: .char c :: ps
  | c :: cs => (replacement? cs).map (.char c :: ·)

/-- The text that a replacement puts in the place of `whole`. -/
def replacementText (whole : String) (ps : List ReplacementPiece) : List Char :=
  ps.flatMap fun
    | .char c => [c]
    | .whole => whole.toList

namespace Monetary

def typeName : String := "org.clausegram.money.MonetaryAmount"

/-- The format of monetary amounts for which no other is asked. -/
def defaultFormat : String := "0,0.00 CCC"

def rule (format : String) : Outcome Rule := do
  let f ← MonetaryFormat.ofString format
  return formatRule "MonetaryAmount" "monetary" format f.symbols

/-- The code of a currency that is shown by its code or its symbol. -/
def currencyCode (shown : String) : String :=
  (currencySymbols.lookup shown).getD shown

def read (text format : String) : Outcome Value := do
  let f ← MonetaryFormat.ofString format
  match splitBySymbols? f.symbols text with
  | none => .fail (.reading (.monetary text format))
  | some texts =>
    let x ← Outcome.ofOption (f.amount.toDouble? (f.pieceText .amount texts))
    return .object [("$class", .text typeName), ("doubleValue", .double x),
      ("currencyCode", .text (currencyCode (String.ofList (f.pieceText .currency texts))))]

def shownCurrency (style : CurrencyStyle) (format : String) (code : Value) : Outcome String :=
  match style, code with
  | .code, .text s => .ok s
  | .code, _ => .fail .undefined
  | .symbol, .list _ | .symbol, .object _ => .fail .undefined
  | .symbol, v =>
    match currencySymbols.find? fun e => Value.same (.text e.2) v with
    | some e => .ok e.1
    | none => .fail (.format (.noSymbol v.plain format))

/-- The text around places for the currency with the currency put in. -/
def fill (ps : List ReplacementPiece) (parts : List (List Char × CurrencyStyle) × List Char) :
    List Char :=
  (parts.1.flatMap fun p => p.1 ++ replacementText p.2.placeholder ps) ++ parts.2

def write (value : Value) (format : String) : Outcome String := do
  let f ← MonetaryFormat.ofString format
  let code ← Outcome.ofOption (value.get? "currencyCode")
  let shown ← shownCurrency f.style format code
  let ps ← Outcome.ofOption (replacement? shown.toList)
  let x ← Outcome.ofOption ((value.get? "doubleValue").bind Value.toDouble?)
  return String.ofList (fill ps f.before ++ f.amount.writeNumber x ++ fill ps f.after)

end Monetary

/-! ### Formats by type -/

/-- The types whose values may be given a format. -/
inductive Formatted where
  | date
  | amount
  | monetary
deriving DecidableEq, Repr

namespace Formatted

def ofType? (type : String) : Option Formatted :=
  if type = "DateTime" then some .date
  else if type = "Double" then some .amount
  else if type = Monetary.typeName then some .monetary
  else none

def rule (k : Formatted) (format : String) : Outcome Rule :=
  match k with
  | .date => DateTime.rule format
  | .amount => Amount.rule format
  | .monetary => Monetary.rule format

def write (k : Formatted) (value : Value) (format : String) : Outcome String :=
  match k with
  | .date => DateTime.write value format
  | .amount => Amount.write value format
  | .monetary => Monetary.write value format

end Formatted

/-! ### Formats as regular expressions

A format has a regular expression for the texts in it as a whole: what stands for itself is
escaped, and what is read of a text, its fields or the number and the currency, is in
brackets. -/

def escapedText (cs : List Char) : String :=
  String.ofList (cs.flatMap escapeRegex)

def bracketed (regex : String) : String :=
  "(" ++ regex ++ ")"

/-- The regular expression of a piece of a date format. -/
def DateToken.expression : DateToken → String
  | .field f => bracketed f.regex
  | .literal cs => escapedText cs

def DateFormat.expression (f : DateFormat) : String :=
  String.join (f.tokens.map DateToken.expression)

def AmountFormat.expression (f : AmountFormat) : String :=
  escapedText f.before ++ bracketed f.regex ++ escapedText f.after

namespace MonetaryFormat

/-- The regular expression of the text before or after the amount: its pieces with the
currency between them. -/
def affixExpression (f : MonetaryFormat)
    (parts : List (List Char × CurrencyStyle) × List Char) : String :=
  (bracketed f.style.regex).intercalate ((parts.1.map Prod.fst ++ [parts.2]).map escapedText)

def expression (f : MonetaryFormat) : String :=
  f.affixExpression f.before ++ bracketed f.amount.regex ++ f.affixExpression f.after

end MonetaryFormat

def Formatted.expression (k : Formatted) (format : String) : Outcome String :=
  match k with
  | .date => (DateFormat.ofString format).map DateFormat.expression
  | .amount => (AmountFormat.ofString format).map AmountFormat.expression
  | .monetary => (MonetaryFormat.ofString format).map MonetaryFormat.expression

end Covenant
