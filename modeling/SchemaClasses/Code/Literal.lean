import SchemaClasses.Document.Basic
import SchemaClasses.Text.Quoted

/-!
# Literals

Default values and directive arguments as literals of the generated code. A variable has no literal.
-/

namespace SchemaClasses.Value

def boolText (b : Bool) : String :=
  if b then "True" else "False"

mutual

/-- The literal as source text, or the kind of a part that has none. -/
def emit : Value → Except NodeKind String
  | .variable _ => .error .variable
  | .int n => .ok n.text
  | .float n => .ok n.text
  | .string content _ => .ok (Text.quote content)
  | .boolean b => .ok (boolText b)
  | .null => .ok "None"
  | .enum name => .ok (Text.quote name)
  | .list items => do
    let texts ← emitItems items
    return "[" ++ Text.joinWith ", " texts ++ "]"
  | .object fields => do
    let texts ← emitFields fields
    return "\x7b" ++ Text.joinWith ", " texts ++ "\x7d"

def emitItems : List Value → Except NodeKind (List String)
  | [] => .ok []
  | item :: rest => do
    let text ← emit item
    let texts ← emitItems rest
    return text :: texts

def emitFields : List (String × Value) → Except NodeKind (List String)
  | [] => .ok []
  | (name, value) :: rest => do
    let text ← emit value
    let texts ← emitFields rest
    return (Text.quote name ++ ": " ++ text) :: texts

end

end SchemaClasses.Value
