import SchemaClasses.Code.Assignment
import SchemaClasses.Code.Literal
import SchemaClasses.Code.TypeExpr
import SchemaClasses.Config

/-!
# Fields

Fields, arguments and input fields as assignments.
-/

namespace SchemaClasses

/-- Why no code is emitted for a document. -/
inductive EmissionError
  /-- A literal of a kind that the generated code has no literal for. -/
  | literal (kind : NodeKind)
  /-- A node of a kind that is not generated. -/
  | node (kind : NodeKind)
  /-- A setting that cannot be used. -/
  | setting (e : SettingError)
deriving DecidableEq, Repr

def EmissionError.message : EmissionError → String
  | .literal kind => s!"Literal of kind '{kind.label}' is not supported."
  | .node kind => s!"Node of kind '{kind.label}' is not supported."
  | .setting e => e.message

namespace Field

/-! ## Calls -/

/-- The keywords that a field has a meaning of its own for; arguments with these names are passed
    in a dictionary. -/
def reservedKeywords : List String :=
  ["args", "resolver", "source", "deprecation_reason", "name", "description", "required",
    "default_value"]

/-- Whether an argument of this name cannot be passed as a keyword. -/
def isReserved (name : String) : Bool :=
  reservedKeywords.contains name

/-- The call for a type with a description, if that is not empty. -/
def baseCall (type : TypeRef) (description : Option String) : Except EmissionError Call := do
  let expr ← type.emit.mapError .node
  let call : Call := ⟨"Field", [.source ("lambda: " ++ expr)], []⟩
  let text := description.getD ""
  return if text.isEmpty then call
    else call.merge [("description", some (.source (Text.quote text)))]

/-- The call bound to the name that the configuration asks for; a keyword gives way. -/
def assign (config : Config) (schemaName : String) (call : Call) (imports : List Import) :
    Assignment :=
  let name :=
    if config.convertFieldNames.isTruthy then Text.snakeCase schemaName else schemaName
  let assignment : Assignment := { name, call, imports, schemaName }
  let escaped := Text.escapeKeyword name
  if escaped = name then assignment else assignment.renamed escaped

/-! ## Arguments -/

/-- An argument or an input field as an assignment. -/
def ofInputValue (config : Config) (d : InputValueDef) : Except EmissionError Assignment := do
  let call ← baseCall d.type d.description
  let call ← match d.defaultValue with
    | none => pure call
    | some value => do
      let text ← value.emit.mapError .literal
      pure (call.merge [("default_value", some (.source text))])
  return assign config d.name call d.type.imports

/-- Arguments as one dictionary from their names to their calls. -/
def argumentDict (arguments : List (String × Call)) : Text :=
  "\x7b" ++ Text.join ", " (arguments.map fun (key, call) =>
    Text.quote key ++ ": " ++ call.render) ++ "\x7d"

/-- The call with the arguments of a field: those that can be as keywords, the others in a
    dictionary. -/
def withArguments (call : Call) (arguments : List Assignment) : Call :=
  let pairs := (Assignment.unique arguments).map Assignment.asArgument
  let plain := pairs.filter (!isReserved ·.1)
  let reserved := pairs.filter (isReserved ·.1)
  let call := call.merge (plain.map fun (key, argument) => (key, some argument.toExpr))
  if reserved.isEmpty then call
  else call.merge [("args", some (.source (argumentDict reserved)))]

/-! ## Deprecation -/

/-- The reason that a deprecation gives, or the configured one, as source text. -/
def reasonText (config : Config) (d : Directive) : Except EmissionError Text :=
  match d.arguments.find? (·.name = "reason") with
  | some argument => Text.ofString <$> argument.value.emit.mapError .literal
  | none => .ok config.reasonText

/-- The call with the reasons of the deprecations among the directives; the last one stays. -/
def withDeprecation (config : Config) (call : Call) :
    List Directive → Except EmissionError Call
  | [] => .ok call
  | d :: rest =>
    if d.name = "deprecated" then do
      let text ← reasonText config d
      withDeprecation config (call.merge [("deprecation_reason", some (.source text))]) rest
    else withDeprecation config call rest

/-! ## Fields -/

/-- The names of the class library that a field needs. -/
def importsOf (type : TypeRef) (arguments : List Assignment) : List Import :=
  type.imports
    ++ (if arguments.isEmpty then [] else .argument :: arguments.flatMap (·.imports))

/-- A field of an object or interface type as an assignment. -/
def ofField (config : Config) (d : FieldDef) : Except EmissionError Assignment := do
  let arguments ← d.arguments.mapM (ofInputValue config)
  let call ← baseCall d.type d.description
  let call ← withDeprecation config (withArguments call arguments) d.directives
  return assign config d.name call (importsOf d.type arguments)

end Field

end SchemaClasses
