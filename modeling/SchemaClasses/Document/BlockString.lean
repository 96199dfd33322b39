import SchemaClasses.Text.Lines

/-!
# Block strings

The content of a string between triple quotes: the indentation that its lines share is dropped,
and so are blank lines at either end.
-/

namespace SchemaClasses.BlockString

def isIndent (c : Char) : Bool :=
  c = ' ' || c = '\t'

def indent (line : List Char) : Nat :=
  (line.takeWhile isIndent).length

def isBlank (line : List Char) : Bool :=
  line.all isIndent

/-- The least indentation among the lines that are not blank, if there are any. -/
def commonIndent? (lines : List (List Char)) : Option Nat :=
  ((lines.filter (!isBlank ·)).map indent).min?

/-- The lines without those at either end that are blank. -/
def trimBlank (lines : List (List Char)) : List (List Char) :=
  ((lines.dropWhile isBlank).reverse.dropWhile isBlank).reverse

/-- The lines with the indentation dropped that all but the first share; a line with less than that
    is blank and becomes empty. -/
def dedent : List (List Char) → List (List Char)
  | [] => []
  | first :: rest =>
    match commonIndent? rest with
    | some size => first :: rest.map (·.drop size)
    | none => first :: rest.map fun _ => []

/-- The content of a block string with these lines. -/
def content (lines : List (List Char)) : String :=
  Text.joinWith "\n" ((trimBlank (dedent lines)).map String.ofList)

end SchemaClasses.BlockString
