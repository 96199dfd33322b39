import SchemaClasses.Text.Quoted
import SchemaClasses.Text.Printable

/-!
# Displayed strings

A text as messages show it: between single quotes, or between double quotes if it holds a single
quote and no double one, with an escape for what cannot be shown.
-/

namespace SchemaClasses.Text

/-- The last `width` hexadecimal digits of a number. -/
def hexDigits : (width : Nat) → Nat → List Char
  | 0, _ => []
  | width + 1, n => hexDigits width (n / 16) ++ [hexDigit (n % 16)]

/-- The escape of a code point by its number. -/
def escapeNumber (n : Nat) : List Char :=
  if n < 0x100 then '\\' :: 'x' :: hexDigits 2 n
  else if n < 0x10000 then '\\' :: 'u' :: hexDigits 4 n
  else '\\' :: 'U' :: hexDigits 8 n

/-- How one code point is shown between two marks `mark`. -/
def displayPoint (mark : Char) : CodePoint → List Char
  | .char c =>
    if c = mark || c = '\\' then ['\\', c]
    else if c = '\n' then ['\\', 'n']
    else if c = '\r' then ['\\', 'r']
    else if c = '\t' then ['\\', 't']
    else if isPrintable c then [c]
    else escapeNumber c.toNat
  | .half place => escapeNumber (CodePoint.halfNumber place)

/-- The marks that a text is shown between. -/
def displayMark (text : List CodePoint) : Char :=
  if text.contains '\'' && !text.contains '"' then '"' else '\''

/-- The text as messages show it. -/
def display (text : Text) : String :=
  let mark := displayMark text.points
  String.ofList (mark :: (text.points.flatMap (displayPoint mark) ++ [mark]))

end SchemaClasses.Text
