import SchemaClasses.Text.Lines

/-!
# Quoted strings

A string literal between double quotes. The quote, the backslash and the control characters below
the blank are escaped, every other character stands for itself.
-/

namespace SchemaClasses.Text

/-! ## Writing -/

/-- The hexadecimal digit of a number below sixteen, in lower case. -/
def hexDigit (n : Nat) : Char :=
  if n < 10 then Char.ofNat ('0'.toNat + n) else Char.ofNat ('a'.toNat + (n - 10))

def quoteChar (c : Char) : List Char :=
  if c = '"' then ['\\', '"']
  else if c = '\\' then ['\\', '\\']
  else if c = '\n' then ['\\', 'n']
  else if c = '\r' then ['\\', 'r']
  else if c = '\t' then ['\\', 't']
  else if c = '\x08' then ['\\', 'b']
  else if c = '\x0c' then ['\\', 'f']
  else if c.toNat < 0x20 then
    ['\\', 'u', '0', '0', hexDigit (c.toNat / 16), hexDigit (c.toNat % 16)]
  else [c]

/-- The text as a string literal between double quotes. -/
def quoteChars (text : List Char) : List Char :=
  '"' :: (text.flatMap quoteChar ++ ['"'])

/-- The text as a string literal between double quotes. -/
def quote (text : String) : String :=
  String.ofList (quoteChars text.toList)

def quotePoint : CodePoint → List CodePoint
  | .char c => (quoteChar c).map .char
  | half => [half]

/-- The text as a string literal between double quotes. -/
def quoted (text : Text) : Text :=
  ⟨.char '"' :: (text.points.flatMap quotePoint ++ [.char '"'])⟩

/-- A string is quoted alike as a text. -/
theorem quoted_ofString (s : String) : quoted s = quote s := by
  ext1
  simp [quoted, quote, quoteChars, List.flatMap_map, List.map_flatMap, quotePoint]

/-- A half shows as itself between quotes. -/
theorem chars_quoted (text : Text) : text.quoted.chars = quoteChars text.chars := by
  have hpoint (p : CodePoint) : (quotePoint p).map CodePoint.shown = quoteChar p.shown := by
    cases p with
    | char c => simp [quotePoint, CodePoint.shown, Function.comp_def]
    | half place => rfl
  simp [chars, quoted, quoteChars, List.map_flatMap, List.flatMap_map, hpoint, CodePoint.shown]

end SchemaClasses.Text
