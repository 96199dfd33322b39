import SchemaClasses.Text.Quoted

/-!
# Documentation strings

A text as a literal between triple double quotes. Backslashes, runs of three quotes, the control
characters other than tab and line feed, and a quote at the very end are escaped.
-/

namespace SchemaClasses.Text

/-- Whether a control character cannot stand for itself between triple quotes. -/
def isRawControl (c : Char) : Bool :=
  (c.toNat < 0x20 && c != '\t' && c != '\n') || c.toNat == 0x7f

theorem toNat_lt_of_isRawControl {c : Char} (h : isRawControl c) : c.toNat < 256 := by
  simp only [isRawControl, Bool.or_eq_true, Bool.and_eq_true, decide_eq_true_eq, beq_iff_eq] at h
  omega

/-- The body of a documentation string, but for the rule on its last character. -/
def escapeDoc : List Char → List Char
  | [] => []
  | '"' :: '"' :: '"' :: rest => '\\' :: '"' :: '\\' :: '"' :: '\\' :: '"' :: escapeDoc rest
  | '\\' :: rest => '\\' :: '\\' :: escapeDoc rest
  | c :: rest =>
    if isRawControl c then
      '\\' :: 'x' :: hexDigit (c.toNat / 16) :: hexDigit (c.toNat % 16) :: escapeDoc rest
    else c :: escapeDoc rest

/-- A quote at the very end gets a backslash before it. -/
def escapeLastQuote (body : List Char) : List Char :=
  if body.getLast? = some '"' then body.dropLast ++ ['\\', '"'] else body

/-- The text as a literal between triple double quotes. -/
def docstringChars (text : List Char) : List Char :=
  ['"', '"', '"'] ++ escapeLastQuote (escapeDoc text) ++ ['"', '"', '"']

/-- The text as a literal between triple double quotes. -/
def docstring (text : String) : String :=
  String.ofList (docstringChars text.toList)

end SchemaClasses.Text
