import SchemaClasses.Code.Emission

/-!
# Modules

Fragments as the text of one module, with a header that says how it was made and what it imports.
-/

namespace SchemaClasses

def programName : String := "graphql_schema_to_code"

def programVersion : String := "1.0.0"

namespace Module

/-- The blocks in order, with one line feed after the last of them. -/
def body (fragments : List Text) : Text :=
  let text := Text.dropEndLineFeeds (Text.flatten fragments)
  if text.isEmpty then "" else text ++ "\n"

/-- The line that says how a module was made. -/
def commentLine (commandLine : Text) : Text :=
  "# Generated by " ++ programName ++ " v" ++ programVersion ++ " : " ++ commandLine

def importLine (names : List Import) : String :=
  "from graphene import " ++ Text.joinWith ", " (names.map Import.text)

/-- The lines of a header, without line feeds around them: the comment if one is asked for, the
    imports if there are any. -/
def header (comment : Bool) (commandLine : Text) (names : List Import) : Text :=
  let comments : List Text := if comment then [commentLine commandLine] else []
  let imports : List Text := if names.isEmpty then [] else [importLine names]
  Text.trimLineFeeds (Text.join "\n" (comments ++ imports))

/-- The header and the body with an empty line between them. -/
def assemble (header body : Text) : Text :=
  if header.isEmpty then body
  else if body.isEmpty then header ++ "\n"
  else header ++ "\n\n" ++ body

/-- The text of a module with these fragments that needs these names. -/
def render (config : Config) (commandLine : Text) (fragments : List Text)
    (imports : List Import) : Text :=
  let body := body fragments
  if config.addImports.isTruthy then
    assemble (header config.addGenerationComment.isTruthy commandLine (Import.sorted imports)) body
  else body

end Module

end SchemaClasses
