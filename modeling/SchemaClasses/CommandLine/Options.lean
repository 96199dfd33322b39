import SchemaClasses.Text.Similarity
import SchemaClasses.Text.Display
import SchemaClasses.Text.Lines

/-!
# Options

The words of a command line as options and arguments. Options may stand anywhere before a word of
two dashes.
-/

namespace SchemaClasses.CommandLine

/-! ## Options -/

/-- The options of this program. -/
inductive Flag
  | config
  | addImports
  | verbose
  | help
deriving DecidableEq, Repr

/-- The long spellings, in the order they are listed. -/
def longSpellings : List (String × Flag) :=
  [("--config", .config), ("--add-imports", .addImports), ("--verbose", .verbose),
    ("--help", .help)]

/-- The short spellings. -/
def shortSpellings : List (String × Flag) :=
  [("-c", .config), ("-v", .verbose)]

def Flag.takesValue (flag : Flag) : Bool :=
  flag = .config

/-! ## Errors -/

/-- Why words are no command line of this program. -/
inductive UsageError
  | noSuchOption (spelling : String) (close : List String)
  | missingValue (spelling : String)
  | unwantedValue (spelling : String)
  | noSuchPath (parameter path : String)
  | extraArguments (words : List String)
deriving DecidableEq, Repr

namespace UsageError

/-- The question that follows a message on an unknown option; several options are offered in
    alphabetical order. -/
def question : List String → String
  | [] => ""
  | [name] => " Did you mean " ++ Text.display name ++ "?"
  | names =>
    let sorted := names.mergeSort fun a b => decide (a ≤ b)
    " (Did you mean one of: "
      ++ Text.joinWith ", " (sorted.map fun (name : String) => Text.display name) ++ "?)"

def message : UsageError → String
  | .noSuchOption spelling close =>
    s!"No such option {Text.display spelling}." ++ question close
  | .missingValue spelling => s!"Option {Text.display spelling} requires an argument."
  | .unwantedValue spelling => s!"Option {Text.display spelling} does not take a value."
  | .noSuchPath parameter path =>
    s!"Invalid value for {parameter}: Path {Text.display path} does not exist."
  | .extraArguments words =>
    (if words.length = 1 then "Got unexpected extra argument ("
      else "Got unexpected extra arguments (") ++ Text.joinWith " " words ++ ")"

/-- Whether the usage of the program is shown before the message. -/
def showsUsage : UsageError → Bool
  | .missingValue _ | .unwantedValue _ => false
  | _ => true

end UsageError

/-! ## Reading words -/

/-- What the words read so far say. -/
structure Parsed where
  /-- The value of the last configuration option. -/
  config : Option String := none
  addImports : Bool := false
  verbose : Bool := false
  help : Bool := false
  /-- The words that are no options, in order. -/
  arguments : List String := []
deriving DecidableEq, Repr

namespace Parsed

/-- With an option set that takes no value. -/
def setFlag (parsed : Parsed) : Flag → Parsed
  | .config => parsed
  | .addImports => { parsed with addImports := true }
  | .verbose => { parsed with verbose := true }
  | .help => { parsed with help := true }

/-- With an option set to the next word. -/
def takeValue (parsed : Parsed) (spelling : String) :
    List String → Except UsageError (Parsed × List String)
  | [] => .error (.missingValue spelling)
  | value :: rest => .ok ({ parsed with config := some value }, rest)

/-- With the options of a word of short spellings, each letter one of them. The rest of the word
    after an option with a value is that value. -/
def setShort (parsed : Parsed) (rest : List String) :
    List Char → Except UsageError (Parsed × List String)
  | [] => .ok (parsed, rest)
  | letter :: letters =>
    let spelling := String.ofList ['-', letter]
    match shortSpellings.lookup spelling with
    | none => .error (.noSuchOption spelling [])
    | some flag =>
      if flag.takesValue then
        parsed.takeValue spelling
          (if letters.isEmpty then rest else String.ofList letters :: rest)
      else setShort (parsed.setFlag flag) rest letters

/-- With the option that a word spells in full, perhaps with its value after an equals sign. -/
def setLong (parsed : Parsed) (rest : List String) (word : List Char) (flag : Flag)
    (spelling : String) : Except UsageError (Parsed × List String) :=
  match word.dropWhile (· ≠ '=') with
  | _ :: value =>
    if flag.takesValue then parsed.takeValue spelling (String.ofList value :: rest)
    else .error (.unwantedValue spelling)
  | [] =>
    if flag.takesValue then parsed.takeValue spelling rest else .ok (parsed.setFlag flag, rest)

/-- With the option that a word spells, and the words after it. -/
def setOption (parsed : Parsed) (rest : List String) (word : List Char) :
    Except UsageError (Parsed × List String) :=
  let spelling := String.ofList (word.takeWhile (· ≠ '='))
  match longSpellings.lookup spelling with
  | some flag => parsed.setLong rest word flag spelling
  | none =>
    match word with
    | '-' :: '-' :: _ =>
      .error (.noSuchOption spelling (Text.closeMatches spelling (longSpellings.map (·.1))))
    | _ => parsed.setShort rest (word.drop 1)

def isOption (word : List Char) : Bool :=
  word.head? = some '-' && 1 < word.length

/-- With all that the words say. An option takes a word or two, so the number of words is fuel
    enough. -/
def readWords (parsed : Parsed) : (fuel : Nat) → List String → Except UsageError Parsed
  | 0, _ => .ok parsed
  | _, [] => .ok parsed
  | fuel + 1, word :: rest =>
    if word = "--" then .ok { parsed with arguments := parsed.arguments ++ rest }
    else if isOption word.toList then
      match parsed.setOption rest word.toList with
      | .ok (parsed, rest) => readWords parsed fuel rest
      | .error e => .error e
    else readWords { parsed with arguments := parsed.arguments ++ [word] } fuel rest

/-- What the words of a command line say. -/
def ofWords (words : List String) : Except UsageError Parsed :=
  readWords {} (words.length + 1) words

end Parsed

end SchemaClasses.CommandLine
