import SchemaClasses.Text.Words

/-!
# Identifiers

Names that the generated code may bind: a keyword gets an underscore at its end.
-/

namespace SchemaClasses.Text

/-- The words that generated code cannot use as names. -/
def keywords : List String :=
  ["False", "None", "True", "and", "as", "assert", "async", "await", "break", "class", "continue",
    "def", "del", "elif", "else", "except", "finally", "for", "from", "global", "if", "import",
    "in", "is", "lambda", "nonlocal", "not", "or", "pass", "raise", "return", "try", "while",
    "with", "yield"]

/-- Whether generated code cannot use `name` as a name. -/
def isKeyword (name : String) : Bool :=
  keywords.contains name

/-- The name itself, or the name with an underscore after it if it is a keyword. -/
def escapeKeyword (name : String) : String :=
  if isKeyword name then name ++ "_" else name

/-- A name for generated code, converted to lower case with underscores if `convert` says so. -/
def identifier (name : String) (convert : Bool) : String :=
  escapeKeyword (if convert then snakeCase name else name)

end SchemaClasses.Text
