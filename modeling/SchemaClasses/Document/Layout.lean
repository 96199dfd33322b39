import SchemaClasses.Document.Printer

/-!
# Documents as text

The text of a document of type system definitions: one definition after the other with an empty
line between them, the parts of a definition on lines of their own, each with its description above
it. Executable definitions are left out.
-/

namespace SchemaClasses

namespace Layout

/-! ## Directives -/

def directive (d : Directive) : String :=
  let arguments := d.arguments.map fun a => a.name ++ ": " ++ a.value.print
  "@" ++ d.name ++ (if arguments.isEmpty then "" else "(" ++ Text.joinWith ", " arguments ++ ")")

/-- Applied directives with a blank before each of them. -/
def directives (ds : List Directive) : String :=
  Text.concat (ds.map fun d => " " ++ directive d)

/-! ## Descriptions -/

/-- A text with an indentation put after each line feed. -/
def indentLines (indent text : String) : String :=
  String.ofList (text.toList.flatMap fun c => if c = '\n' then c :: indent.toList else [c])

/-- A description on lines of its own, between triple quotes if it can be read back from there. -/
def description (indent : String) : Option String → String
  | none => ""
  | some text =>
    let literal : Value := .string text (isBlockText text.toList)
    indent ++ indentLines indent literal.print ++ "\n"

/-- One of the parts of a definition: its description and its own text. -/
abbrev Part := Option String × String

/-- A part on lines of its own. -/
def part (indent : String) (p : Part) : String :=
  description indent p.1 ++ indent ++ p.2

/-- Parts on lines of their own. An empty line comes before each description but that of the first
    part. -/
def parts (indent : String) : List Part → List String
  | [] => []
  | first :: rest =>
    part indent first :: rest.map fun p =>
      (if p.1.isSome then "\n" else "") ++ part indent p

/-- Parts between braces, if there are any. -/
def block (ps : List Part) : String :=
  if ps.isEmpty then ""
  else " \x7b\n" ++ Text.joinWith "\n" (parts "  " ps) ++ "\n\x7d"

/-! ## Fields and arguments -/

def inputValue (d : InputValueDef) : Part :=
  let default := match d.defaultValue with
    | none => ""
    | some value => " = " ++ value.print
  (d.description, d.name ++ ": " ++ d.type.print ++ default ++ directives d.directives)

/-- The arguments of a definition on a line with this indentation: on one line if none of them is
    described. -/
def arguments (indent : String) (ds : List InputValueDef) : String :=
  let ps := ds.map inputValue
  if ps.isEmpty then ""
  else if ps.all (·.1.isNone) then "(" ++ Text.joinWith ", " (ps.map (·.2)) ++ ")"
  else "(\n" ++ Text.joinWith "\n" (parts ("  " ++ indent) ps) ++ "\n" ++ indent ++ ")"

def field (d : FieldDef) : Part :=
  (d.description,
    d.name ++ arguments "  " d.arguments ++ ": " ++ d.type.print ++ directives d.directives)

def enumValue (d : EnumValueDef) : Part :=
  (d.description, d.name ++ directives d.directives)

/-! ## Definitions -/

/-- Names after a mark, with a separator between them, if there are any. -/
def names (mark separator : String) (ns : List String) : String :=
  if ns.isEmpty then "" else mark ++ Text.joinWith separator ns

/-- A type or its extension, without its description. -/
def type (d : TypeDef) : String :=
  let applied := directives d.directives
  match d.body with
  | .scalar => "scalar " ++ d.name ++ applied
  | .object parents fields =>
    "type " ++ d.name ++ names " implements " " & " parents ++ applied ++ block (fields.map field)
  | .interface parents fields =>
    "interface " ++ d.name ++ names " implements " " & " parents ++ applied
      ++ block (fields.map field)
  | .union members => "union " ++ d.name ++ applied ++ names " = " " | " members
  | .enum values => "enum " ++ d.name ++ applied ++ block (values.map enumValue)
  | .inputObject fields => "input " ++ d.name ++ applied ++ block (fields.map inputValue)

/-- A directive, without its description. -/
def directiveDef (d : DirectiveDef) : String :=
  "directive @" ++ d.name ++ arguments "" d.arguments
    ++ (if d.repeatable then " repeatable" else "") ++ names " on " " | " d.locations

/-- The schema or its extension, without its description. -/
def schema (d : SchemaDef) : String :=
  "schema" ++ directives d.directives
    ++ block (d.operations.map fun (kind, name) => (none, kind.label ++ ": " ++ name))

/-- A definition of the type system; none if it is executable. -/
def definition? : Definition → Option String
  | .schema d => some (description "" d.description ++ schema d)
  | .schemaExtension d => some ("extend " ++ schema d)
  | .type d => some (description "" d.description ++ type d)
  | .typeExtension d => some ("extend " ++ type d)
  | .directive d => some (description "" d.description ++ directiveDef d)
  | .operation _ | .fragment _ => none

end Layout

/-- The type system definitions of a document as text. -/
def Document.print (document : Document) : String :=
  Text.joinWith "\n\n" (document.filterMap Layout.definition?)

end SchemaClasses
