import SchemaClasses.CommandLine.Options
import SchemaClasses.CommandLine.Reconstruction
import SchemaClasses.ConfigFile
import SchemaClasses.Generation
import SchemaClasses.Text.Encoding

/-!
# Running the command

One run of the program on a file tree: what it prints, the code that it exits with, and the tree
after it. Only the file that the module goes to can change. It is emptied before the module is
encoded, and stays empty if that is not possible.
-/

namespace SchemaClasses.CommandLine

/-! ## Texts -/

def usage : String :=
  "Usage: graphql-schema-to-code [OPTIONS] [PATH] [OUTPUT]\n"

def helpText : String :=
  usage ++ "\nOptions:\n  -c, --config PATH\n"
    ++ "  --add-imports      Prepend the graphene imports the generated module needs\n"
    ++ "  -v, --verbose      Log debug information\n"
    ++ "  --help             Show this message and exit.\n"

/-- The text for words that are no command line. -/
def UsageError.report (e : UsageError) : String :=
  (if e.showsUsage then usage ++ "Try 'graphql-schema-to-code --help' for help.\n\n" else "")
    ++ "Error: " ++ e.message ++ "\n"

def warningLine (d : Diagnostic) : String :=
  "WARNING graphql_schema_to_code.pipeline.diagnostics: " ++ d.text ++ "\n"

def countLine (g : Generation) : String :=
  s!"DEBUG graphql_schema_to_code.pipeline.generator: Generated {g.fragments} of "
    ++ s!"{g.definitions} definitions\n"

/-! ## Outcomes -/

/-- Why a run breaks off without a message of its own. -/
inductive Failure
  /-- A path that is needed and not given. -/
  | noPath
  /-- A path that is that of no file. -/
  | brokenPath
  | notText (e : Text.Utf8Error)
  | noEncoding (e : Text.EncodeError)
  | file (e : FileError)
  | config (e : ConfigError)
  | setting (e : SettingError)
deriving Repr

def Failure.message : Failure → String
  | .noPath => "expected str, bytes or os.PathLike object, not NoneType"
  | .brokenPath => "lstat: embedded null character in path"
  | .notText e => e.message
  | .noEncoding e => e.message
  | .file e => e.message
  | .config e => e.message
  | .setting e => e.message

/-- What a run does. -/
structure Outcome where
  exitCode : Nat
  stdout : String
  stderr : String
  tree : FileTree
  failure : Option Failure
deriving Repr

/-- The parameters of a run, with paths resolved. -/
structure Request where
  config : Option (List String)
  addImports : Bool
  verbose : Bool
  path : Option (List String)
  output : Option (List String)
deriving DecidableEq, Repr

/-! ## Checking parameters -/

/-- Why the words of a command line make no request. -/
inductive RequestError
  | usage (e : UsageError)
  | failed (failure : Failure)
deriving Repr

/-- The place of a path, if there is one. -/
def resolved (start : List String) : Option String → Except RequestError (Option (List String))
  | none => .ok none
  | some text =>
    let path := FilePath.ofString text
    if path.isBroken then .error (.failed .brokenPath) else .ok (some (path.resolve start))

/-- The place of a path, where there must be something. -/
def existing (tree : FileTree) (start : List String) (parameter : String)
    (path : Option String) : Except RequestError (Option (List String)) := do
  let place ← resolved start path
  if place.all tree.exists? then return place
  else .error (.usage (.noSuchPath parameter (path.getD "")))

/-- The parameters that the words of a command line give, or none if they ask for help. -/
def Request.ofWords (tree : FileTree) (start : List String) (words : List String) :
    Except RequestError (Option Request) := do
  let parsed ← (Parsed.ofWords words).mapError .usage
  if parsed.help then return none
  else
    let config ← existing tree start "'--config' / '-c'" parsed.config
    let path ← existing tree start "'[PATH]'" parsed.arguments[0]?
    let output ← resolved start parsed.arguments[1]?
    if 2 < parsed.arguments.length then
      .error (.usage (.extraArguments (parsed.arguments.drop 2)))
    else
      return some
        { config, addImports := parsed.addImports, verbose := parsed.verbose, path, output }

/-- The values of the parameters by name. -/
def Request.values (request : Request) : List (String × Json Text) :=
  let path (place : Option (List String)) : Json Text :=
    place.elim .null fun names => .string (absoluteText names)
  [("config", path request.config), ("add_imports", .bool request.addImports),
    ("verbose", .bool request.verbose), ("path", path request.path),
    ("output", path request.output)]

/-- The command line that headers show. -/
def Request.commandLine (request : Request) : Text :=
  reconstruct parameters request.values

/-! ## Running -/

/-- Why a run with valid parameters has no result. -/
inductive RunError
  /-- A message is shown. -/
  | reported (message : String)
  | failed (failure : Failure)
deriving Repr

/-- How a run ends whose configuration file gives no configuration. -/
def RunError.ofConfigError : ConfigError → RunError
  | .unreadable e => .reported (ConfigError.unreadable e).message
  | .invalidJson path text e => .reported (ConfigError.invalidJson path text e).message
  | .notObject path => .reported (ConfigError.notObject path).message
  | e => .failed (.config e)

/-- How a run ends whose text gives no module. -/
def RunError.ofGenerationError (text : String) : GenerationError → RunError
  | .emission (.setting (.missing key)) => .failed (.setting (.missing key))
  | e => .reported (e.report text)

def placePath (place : List String) : FilePath :=
  ⟨"/", place⟩

/-- The configuration that the parameters ask for. -/
def Request.loadConfig (maxDepth : Nat) (request : Request) (tree : FileTree) :
    Except RunError Config := do
  let config ← match request.config with
    | none => pure {}
    | some place => (Config.ofFile maxDepth tree [] (placePath place)).mapError .ofConfigError
  return if request.addImports then { config with addImports := .bool true } else config

/-- The text of the schema that the parameters ask for. -/
def Request.loadText (request : Request) (tree : FileTree) : Except RunError String := do
  match request.path with
  | none => .error (.failed .noPath)
  | some place =>
    let bytes ← (tree.read [] (placePath place)).mapError (.failed ∘ .file)
    let text ← (decodeText bytes).mapError (.failed ∘ .notText)
    return String.ofList text

/-- The tree once the module is written to where the parameters ask for, and why that broke off if
    it did. -/
def Request.store (request : Request) (tree : FileTree) (code : Text) :
    FileTree × Except RunError Unit :=
  match request.output with
  | none => (tree, .error (.failed .noPath))
  | some place =>
    match tree.target [] (placePath place) with
    | .error e => (tree, .error (.failed (.file e)))
    | .ok file =>
      -- Opening the file empties it, and only then is the module encoded.
      let opened := tree.put file []
      match code.encode with
      | .error e => (opened, .error (.failed (.noEncoding e)))
      | .ok bytes => (opened.put file bytes, .ok ())

/-- The outcome of a run that has no result. -/
def RunError.outcome (tree : FileTree) (stderr : String) : RunError → Outcome
  | .reported message => ⟨1, "", stderr ++ "Error: " ++ message ++ "\n", tree, none⟩
  | .failed failure => ⟨1, "", stderr, tree, some failure⟩

/-- The outcome once the module is generated: warnings are shown, then the module is written. -/
def Request.finish (request : Request) (tree : FileTree) (stderr : String)
    (warnings : Diagnostics) (generation : Generation) : Outcome :=
  let stderr := stderr ++ Text.concat (warnings.messages.map (· ++ "\n"))
  match request.store tree generation.code with
  | (tree, .ok ()) => ⟨0, "", stderr, tree, none⟩
  | (tree, .error e) => e.outcome tree stderr

/-- The outcome of a run with these parameters. -/
def Request.run (maxDepth : Nat) (request : Request) (tree : FileTree) : Outcome :=
  let inputs := do
    let config ← request.loadConfig maxDepth tree
    let text ← request.loadText tree
    return (config, text)
  match inputs with
  | .error e => e.outcome tree ""
  | .ok (config, text) =>
    let (result, warnings) := generate config request.commandLine [] text
    let log := if request.verbose then Text.concat (warnings.map warningLine) else ""
    match result with
    | .error e => (RunError.ofGenerationError text e).outcome tree log
    | .ok generation =>
      let log := if request.verbose then log ++ countLine generation else log
      request.finish tree log warnings generation

/-- The outcome of a run with the words of a command line in a directory of the tree, where the values
    of a configuration nest no deeper than `maxDepth`. -/
def run (maxDepth : Nat) (start : List String) (words : List String) (tree : FileTree) : Outcome :=
  match Request.ofWords tree start words with
  | .error (.usage e) => ⟨2, "", e.report, tree, none⟩
  | .error (.failed failure) => ⟨1, "", "", tree, some failure⟩
  | .ok none => ⟨0, helpText, "", tree, none⟩
  | .ok (some request) => request.run maxDepth tree

end SchemaClasses.CommandLine
