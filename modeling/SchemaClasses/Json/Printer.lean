import SchemaClasses.Json.Basic
import SchemaClasses.Text.Lines
import SchemaClasses.Text.Display

/-!
# Printing JSON

Values as JSON text, and as the generated language and its messages show them.
-/

namespace SchemaClasses.Json

/-! ## JSON text -/

/-- A double as JSON shows it. -/
def floatText (x : Decimal.Binary64) : String :=
  x.textWith ("Infinity", "NaN")

mutual

/-- The value as JSON text on one line, a blank after each comma and each colon. -/
def print : Json Text → Text
  | .null => "null"
  | .bool b => if b then "true" else "false"
  | .int n => toString n
  | .float x => floatText x
  | .string text => text.quoted
  | .array items => "[" ++ Text.join ", " (printItems items) ++ "]"
  | .object members => "\x7b" ++ Text.join ", " (printMembers members) ++ "\x7d"

def printItems : List (Json Text) → List Text
  | [] => []
  | item :: rest => print item :: printItems rest

def printMembers : List (Text × Json Text) → List Text
  | [] => []
  | (key, value) :: rest => (key.quoted ++ ": " ++ print value) :: printMembers rest

end

/-! ## Display -/

/-- A double as messages show it. -/
def displayFloat (x : Decimal.Binary64) : String :=
  x.textWith ("inf", "nan")

mutual

/-- The value as it is displayed within other values. -/
def display : Json Text → String
  | .null => "None"
  | .bool b => if b then "True" else "False"
  | .int n => toString n
  | .float x => displayFloat x
  | .string text => Text.display text
  | .array items => "[" ++ Text.joinWith ", " (displayItems items) ++ "]"
  | .object members => "\x7b" ++ Text.joinWith ", " (displayMembers members) ++ "\x7d"

def displayItems : List (Json Text) → List String
  | [] => []
  | item :: rest => display item :: displayItems rest

def displayMembers : List (Text × Json Text) → List String
  | [] => []
  | (key, value) :: rest => (Text.display key ++ ": " ++ display value) :: displayMembers rest

end

/-- The value as text on its own: a string stands for itself. -/
def asText : Json Text → Text
  | .string text => text
  | value => display value

/-! ## Short display -/

/-- A text of more than 240 characters keeps only its ends. -/
def shorten (text : String) : String :=
  let chars := text.toList
  if chars.length > 240 then
    String.ofList (chars.take 118) ++ "..." ++ String.ofList (chars.drop (chars.length - 119))
  else text

/-- Of more than ten pieces the first five and the last four are shown. -/
def shortenList (pieces : List String) : List String :=
  if pieces.length > 10 then pieces.take 5 ++ ["..."] ++ pieces.drop (pieces.length - 4)
  else pieces

mutual

/-- The value as error messages show it, with `depth` levels of collections. -/
def inspect (depth : Nat) : Json String → String
  | .null => "None"
  | .bool b => if b then "True" else "False"
  | .int n => shorten (toString n)
  | .float x => displayFloat x
  | .string text => shorten (Text.display text)
  | .array [] => "[]"
  | .object [] => "\x7b\x7d"
  | .array (item :: items) =>
    match depth with
    | 0 => "[...]"
    | depth + 1 =>
      "[" ++ Text.joinWith ", " (shortenList (inspect depth item :: inspectItems depth items))
        ++ "]"
  | .object ((key, value) :: members) =>
    match depth with
    | 0 => "\x7b...\x7d"
    | depth + 1 =>
      "\x7b" ++ Text.joinWith ", "
        (shortenList ((shorten (Text.display key) ++ ": " ++ inspect depth value)
          :: inspectMembers depth members)) ++ "\x7d"

def inspectItems (depth : Nat) : List (Json String) → List String
  | [] => []
  | item :: rest => inspect depth item :: inspectItems depth rest

def inspectMembers (depth : Nat) : List (String × Json String) → List String
  | [] => []
  | (key, value) :: rest =>
    (shorten (Text.display key) ++ ": " ++ inspect depth value) :: inspectMembers depth rest

end

end SchemaClasses.Json
