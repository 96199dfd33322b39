import SchemaClasses.Code.Record
import SchemaClasses.Text.Docstring

/-!
# Classes

Definitions of a document as blocks of the generated module. What a block needs to be imported and
the warnings on what it leaves out go into the record.
-/

namespace SchemaClasses

namespace Fragment

/-! ## Blocks -/

def indent (line : Text) : Text :=
  "    " ++ line

/-- Two line feeds end every block. -/
def blockEnd : Text := "\n\n"

/-- The lines of a class: its head, its description if there is one, its body. -/
def classLines (name : String) (base : Import) (description : String) (body : List Text) :
    List Text :=
  let docs : List Text := if description.isEmpty then [] else [Text.docstring description]
  let inner := docs ++ body
  let lines : List Text := if inner.isEmpty then ["pass"] else inner
  ("class " ++ name ++ "(" ++ base.text ++ "):" : String) :: lines.map indent

/-- A class as a block. -/
def classBlock (name : String) (base : Import) (description : String) (body : List Text) : Text :=
  Text.join "\n" (classLines name base description body) ++ blockEnd

/-! ## Unions, enumerations, scalars -/

/-- The lines that list the members of a union. -/
def unionBody (members : List String) : List Text :=
  match members with
  | [] => []
  | [member] => ["class Meta:", indent ("types = (lambda: " ++ member ++ ",)" : String)]
  | members =>
    ["class Meta:",
      indent ("types = (" ++ Text.joinWith ", " (members.map ("lambda: " ++ ·)) ++ ")" : String)]

def enumCall (name description : String) (values : List String) : Call :=
  let list := "[" ++ Text.joinWith ", " (values.map Text.quote) ++ "]"
  let call : Call := ⟨"Enum", [.source (Text.quote name), .source list], []⟩
  if description.isEmpty then call
  else call.merge [("description", some (.source (Text.quote description)))]

def enumBlock (name description : String) (values : List String) : Text :=
  name ++ " = " ++ (enumCall name description values).render ++ blockEnd

/-! ## Warnings -/

def inheritanceWarning (name : String) : Diagnostic :=
  .unsupported "Interface inheritance is not yet supported!" name

def directiveWarning (name : String) : Diagnostic :=
  .unsupported "Directives are not implemented yet!" ("@" ++ name)

def schemaWarning : Diagnostic :=
  .unsupported "Schema definitions are not generated, root types are emitted as classes." "schema"

end Fragment

/-! ## Types -/

/-- The parts of a type as code, before it is known whether the type is left out. -/
inductive EmittedBody
  | fields (base : Import) (inherits : Bool) (assignments : List Assignment)
  | union (members : List String)
  | enum (values : List String)
  | scalar

namespace TypeBody

/-- The parts of a type as code. -/
def emit (config : Config) : TypeBody → Except EmissionError EmittedBody
  | .scalar => .ok .scalar
  | .object interfaces fields => do
    return .fields .objectType (!interfaces.isEmpty) (← fields.mapM (Field.ofField config))
  | .interface interfaces fields => do
    return .fields .interface (!interfaces.isEmpty) (← fields.mapM (Field.ofField config))
  | .union members => .ok (.union members)
  | .enum values => .ok (.enum (values.map (·.name)))
  | .inputObject fields => do
    return .fields .inputObjectType false (← fields.mapM (Field.ofInputValue config))

/-- The kind of the node that extends a type with this body. -/
def extensionKind : TypeBody → NodeKind
  | .scalar => .scalarTypeExtension
  | .object .. => .objectTypeExtension
  | .interface .. => .interfaceTypeExtension
  | .union .. => .unionTypeExtension
  | .enum .. => .enumTypeExtension
  | .inputObject .. => .inputObjectTypeExtension

end TypeBody

def Emission.classBlock (name : String) (base : Import) (description : String)
    (body : List Text) : Emission Text := do
  need [base]
  return Fragment.classBlock name base description body

/-- Writes a type that is not left out. -/
def EmittedBody.write (name description : String) : EmittedBody → Emission Text
  | .fields base inherits assignments => do
    if inherits then Emission.warn (Fragment.inheritanceWarning name)
    let fields := Assignment.unique assignments
    Emission.need (fields.flatMap (·.imports))
    Emission.classBlock name base description (fields.map Assignment.render)
  | .union members =>
    Emission.classBlock name .union description (Fragment.unionBody members)
  | .enum values => do
    Emission.need [.enum]
    return Fragment.enumBlock name description values
  | .scalar => Emission.classBlock name .scalar description ["serialize = lambda x: str(x)"]

/-- Writes a type; one that is left out becomes the empty text. Code must exist for its parts even
    then. -/
def TypeDef.write (config : Config) (d : TypeDef) : Emission Text := do
  let body ← d.body.emit config
  let ignored ← ((config.ignores d.name).mapError .setting : Except EmissionError Bool)
  if ignored then return ""
  else body.write d.name (d.description.getD "")

/-! ## Other definitions -/

mutual

/-- The kind of the node that a selection fails with: the first one at the bottom. -/
def Selection.firstKind : Selection → NodeKind
  | .field _ _ _ selections => (Selection.firstKindOf selections).getD .field
  | .spread .. => .fragmentSpread
  | .inline _ _ selections => (Selection.firstKindOf selections).getD .field

/-- The kind that the first of some selections fails with. -/
def Selection.firstKindOf : List Selection → Option NodeKind
  | [] => none
  | selection :: _ => some selection.firstKind

end

/-- The kind of the node that an operation fails with. -/
def OperationDef.firstKind (d : OperationDef) : NodeKind :=
  if d.variableDefs.isEmpty then (Selection.firstKindOf d.selections).getD .field
  else .variableDefinition

/-- Writes a definition, the empty text if it has no code. Extensions and executable definitions
    cannot be written; the parts of an extension are looked at first. -/
def Definition.write (config : Config) : Definition → Emission Text
  | .schema _ => do
    Emission.warn Fragment.schemaWarning
    return ""
  | .schemaExtension _ => throw (.node .schemaExtension)
  | .type d => d.write config
  | .typeExtension d => do
    let _ ← d.body.emit config
    throw (.node d.body.extensionKind)
  | .directive d => do
    let _ ← (d.arguments.mapM (Field.ofInputValue config) : Except EmissionError _)
    Emission.warn (Fragment.directiveWarning d.name)
    return ""
  | .operation d => throw (.node d.firstKind)
  | .fragment d => throw (.node ((Selection.firstKindOf d.selections).getD .field))

end SchemaClasses
