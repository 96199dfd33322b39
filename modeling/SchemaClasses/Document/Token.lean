import SchemaClasses.Decimal.Numeral

/-!
# Tokens

The lexical units of a schema document, and what can be wrong with a unit.
-/

namespace SchemaClasses

/-! ## Lexical faults -/

/-- What stands at a place where a digit is wrong or missing. -/
inductive Found
  | char (c : Char)
  | nothing
deriving DecidableEq, Repr

/-- Why the characters at some place form no token. -/
inductive LexicalFault
  | unterminatedString
  /-- A backslash with the character after it. -/
  | badEscape (text : String)
  | badUnicodeEscape (text : String)
  /-- A digit after a leading zero. -/
  | digitAfterZero (found : Found)
  | expectedDigit (found : Found)
  | singleQuote
  | unexpected (found : Found)
deriving DecidableEq, Repr

/-- The hexadecimal digits of a number in capitals, four at least. -/
def upperHex (n : Nat) : String :=
  let digits := (Nat.toDigits 16 n).map Char.toUpper
  String.ofList (List.replicate (4 - digits.length) '0' ++ digits)

/-- How a message shows a character: between quotes if it is printable ASCII, else by its number. -/
def Found.describe : Found → String
  | .char c =>
    if 0x20 ≤ c.toNat && c.toNat ≤ 0x7e then String.ofList ['\'', c, '\'']
    else "U+" ++ upperHex c.toNat
  | .nothing => "<EOF>"

def LexicalFault.message : LexicalFault → String
  | .unterminatedString => "Unterminated string."
  | .badEscape text => s!"Invalid character escape sequence: '{text}'."
  | .badUnicodeEscape text => s!"Invalid Unicode escape sequence: '{text}'."
  | .digitAfterZero found =>
    s!"Invalid number, unexpected digit after 0: {found.describe}."
  | .expectedDigit found => s!"Invalid number, expected digit but got: {found.describe}."
  | .singleQuote =>
    "Unexpected single quote character ('), did you mean to use a double quote (\")?"
  | .unexpected found => s!"Unexpected character: {found.describe}."

/-! ## Tokens -/

/-- The punctuators. -/
inductive Punctuator
  | bang | dollar | ampersand | parenLeft | parenRight | spread | colon | equals | at
  | bracketLeft | bracketRight | braceLeft | pipe | braceRight
deriving DecidableEq, Repr

def Punctuator.text : Punctuator → String
  | .bang => "!"
  | .dollar => "$"
  | .ampersand => "&"
  | .parenLeft => "("
  | .parenRight => ")"
  | .spread => "..."
  | .colon => ":"
  | .equals => "="
  | .at => "@"
  | .bracketLeft => "["
  | .bracketRight => "]"
  | .braceLeft => "\x7b"
  | .pipe => "|"
  | .braceRight => "\x7d"

/-- A lexical unit. A text that cannot be read on is a unit of its own, the last one. -/
inductive TokenKind
  | punctuator (p : Punctuator)
  | name (text : String)
  | int (n : Decimal.IntNumeral)
  | float (n : Decimal.FloatNumeral)
  | string (content : String)
  | blockString (content : String)
  | endOfText
  | fault (f : LexicalFault)
deriving DecidableEq, Repr

/-- A lexical unit and the number of characters before it. -/
structure Token where
  kind : TokenKind
  offset : Nat
deriving DecidableEq, Repr

namespace TokenKind

/-- What messages call the class of a unit. -/
def className : TokenKind → String
  | .punctuator p => s!"'{p.text}'"
  | .name _ => "Name"
  | .int _ => "Int"
  | .float _ => "Float"
  | .string _ => "String"
  | .blockString _ => "BlockString"
  | .endOfText | .fault _ => "<EOF>"

/-- The text that a unit carries, if units of its class carry one; it may be empty. -/
def content? : TokenKind → Option String
  | .name text => some text
  | .int n => some n.text
  | .float n => some n.text
  | .string content => some content
  | .blockString content => some content
  | .punctuator _ | .endOfText | .fault _ => none

/-- What messages call a unit: its class, and the text that it carries. -/
def describe (kind : TokenKind) : String :=
  match kind.content? with
  | some content => s!"{kind.className} '{content}'"
  | none => kind.className

end TokenKind

end SchemaClasses
