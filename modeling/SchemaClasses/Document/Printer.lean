import SchemaClasses.Document.Basic
import SchemaClasses.Document.BlockString
import SchemaClasses.Document.Token
import SchemaClasses.Text.Lines

/-!
# Printing literals and types

Literals and type references as a document writes them.
-/

namespace SchemaClasses

/-! ## Strings -/

/-- How one character is written in a quoted string. -/
def escapeStringChar (c : Char) : List Char :=
  if c = '"' then ['\\', '"']
  else if c = '\\' then ['\\', '\\']
  else if c = '\x08' then ['\\', 'b']
  else if c = '\t' then ['\\', 't']
  else if c = '\n' then ['\\', 'n']
  else if c = '\x0c' then ['\\', 'f']
  else if c = '\r' then ['\\', 'r']
  else if c.toNat < 0x20 || (0x7f ≤ c.toNat && c.toNat ≤ 0x9f) then
    '\\' :: 'u' :: (upperHex c.toNat).toList
  else [c]

/-- A string between quotes. -/
def printString (content : String) : String :=
  String.ofList ('"' :: (content.toList.flatMap escapeStringChar ++ ['"']))

/-- The content of a block string with its triple quotes escaped. -/
def escapeBlock : List Char → List Char
  | [] => []
  | '"' :: '"' :: '"' :: rest => '\\' :: '"' :: '"' :: '"' :: escapeBlock rest
  | c :: rest => c :: escapeBlock rest

/-- Whether a text can be written between triple quotes so that it is read back: it has no control
    characters but tab and line feed, its first and last lines are not blank, and not all of its
    lines are indented if there are several. -/
def isBlockText (text : List Char) : Bool :=
  let lines := (Text.numberedLines text).map (·.2)
  let isPlain (c : Char) : Bool := 0x0f < c.toNat || c = '\t' || c = '\n'
  let isIndented (line : List Char) : Bool := line.head?.any BlockString.isIndent
  text.isEmpty ||
    (text.all isPlain
      && lines.head?.all (!BlockString.isBlank ·) && lines.getLast?.all (!BlockString.isBlank ·)
      && (lines.length ≤ 1
        || !(lines.filter (!BlockString.isBlank ·)).all isIndented))

/-- A string between triple quotes, on lines of its own where that reads better or has to be. -/
def printBlockString (content : String) : String :=
  let chars := content.toList
  let escaped := escapeBlock chars
  let lines := (Text.numberedLines escaped).map (·.2)
  let leading := lines.length > 1 && (lines.drop 1).all fun line =>
    line.head?.all BlockString.isIndent
  let tripleEnd := (escaped.drop (escaped.length - 4)) = ['\\', '"', '"', '"']
  let trailing := (chars.getLast? = some '"' && !tripleEnd) || chars.getLast? = some '\\'
  let several := lines.length > 1 || chars.length > 70 || trailing || leading || tripleEnd
  let keepFirst := lines.length = 1 && chars.head?.any BlockString.isIndent
  let before := if (several && !keepFirst) || leading then "\n" else ""
  let after := if several then "\n" else ""
  "\"\"\"" ++ before ++ String.ofList escaped ++ after ++ "\"\"\""

/-! ## Literals -/

mutual

/-- The literal as a document writes it. -/
def Value.print : Value → String
  | .variable name => "$" ++ name
  | .int n => n.text
  | .float n => n.text
  | .string content block => if block then printBlockString content else printString content
  | .boolean b => if b then "true" else "false"
  | .null => "null"
  | .enum name => name
  | .list items => "[" ++ Text.joinWith ", " (Value.printItems items) ++ "]"
  | .object fields => "\x7b" ++ Text.joinWith ", " (Value.printFields fields) ++ "\x7d"

def Value.printItems : List Value → List String
  | [] => []
  | item :: rest => item.print :: Value.printItems rest

def Value.printFields : List (String × Value) → List String
  | [] => []
  | (name, value) :: rest => (name ++ ": " ++ value.print) :: Value.printFields rest

end

/-! ## Types -/

/-- The type reference as a document writes it. -/
def TypeRef.print : TypeRef → String
  | .named name => name
  | .list item => "[" ++ item.print ++ "]"
  | .nonNull item => item.print ++ "!"
  | .foreign kind => kind.label

end SchemaClasses
