import SchemaClasses.FileTree
import SchemaClasses.Json.Printer
import SchemaClasses.Code.Module

/-!
# Reconstructed command lines

The command line that a header shows: the program, its arguments, the options that were set. Files
are shown by their names alone.
-/

namespace SchemaClasses.CommandLine

/-- What a parameter is given by. -/
inductive ParameterKind
  | argument
  /-- An option with its spellings, its default, and whether it is a switch without a value. -/
  | option (spellings : List String) (defaultValue : Option (Json Text)) (isFlag : Bool)
deriving Repr

/-- A parameter of a command. -/
structure Parameter where
  name : String
  /-- Whether the value is the path of a file. -/
  isPath : Bool
  kind : ParameterKind
deriving Repr

def parameters : List Parameter :=
  [⟨"config", true, .option ["--config", "-c"] none false⟩,
    ⟨"add_imports", false, .option ["--add-imports"] (some (.bool false)) true⟩,
    ⟨"verbose", false, .option ["--verbose", "-v"] (some (.bool false)) true⟩,
    ⟨"path", true, .argument⟩,
    ⟨"output", true, .argument⟩]

/-- The last name of the path that a text writes; empty if there is none. -/
def lastName (path : Text) : Text :=
  let names := (FilePath.splitSlashes (.char '/') path.points).filter fun name =>
    name ≠ [] && name ≠ [.char '.']
  ⟨names.getLast?.getD []⟩

/-- A value as the command line shows it. -/
def shown (p : Parameter) (value : Json Text) : Text :=
  if p.isPath then lastName value.asText else value.asText

/-- The words that an argument adds to the command line. -/
def argumentWords (p : Parameter) (value : Json Text) : List Text :=
  match p.kind with
  | .argument => [shown p value]
  | .option .. => []

/-- The words that an option adds to the command line: none if it has its default. -/
def optionWords (p : Parameter) (value : Json Text) : List Text :=
  match p.kind with
  | .argument => []
  | .option spellings defaultValue isFlag =>
    if defaultValue.any value.same then []
    else
      let spelling := spellings.headD ("--" ++ p.name)
      if isFlag then [↑spelling] else [↑spelling, shown p value]

/-- The parameters that are set, with their values; what counts as false is not set. -/
def setParameters (parameters : List Parameter) (values : List (String × Json Text)) :
    List (Parameter × Json Text) :=
  parameters.filterMap fun p =>
    match values.lookup p.name with
    | some value => if value.isTruthy then some (p, value) else none
    | none => none

/-- The command line for the values of parameters: the program, then all arguments, then all
    options. -/
def reconstruct (parameters : List Parameter) (values : List (String × Json Text)) : Text :=
  let given := setParameters parameters values
  let words := (given.flatMap fun (p, value) => argumentWords p value)
    ++ given.flatMap fun (p, value) => optionWords p value
  Text.join " " (programName :: words)

end SchemaClasses.CommandLine
