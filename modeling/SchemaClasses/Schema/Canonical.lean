import SchemaClasses.Schema.Build
import SchemaClasses.Document.Layout
import SchemaClasses.Document.Parser
import SchemaClasses.Json.Printer

/-!
# Canonical documents

A schema as a document: extensions are gone, defaults are written as literals of their types, and
the only directives are those that say something about a declaration. A schema has a canonical
document only if its text can be read back.
-/

namespace SchemaClasses

namespace Schema

/-! ## Values as literals -/

/-- Why a default cannot be written. -/
inductive LiteralError
  /-- A number without end for a type of numbers. -/
  | infinite (x : Decimal.Binary64)
  /-- A value that has no literal. -/
  | noLiteral (value : Json String)
deriving Repr

def LiteralError.message : LiteralError → String
  | .infinite x => "Float cannot represent non numeric value: " ++ Json.displayFloat x
  | .noLiteral value => "Cannot convert value to AST: " ++ value.inspect 2 ++ "."

def numeralLiteral : Decimal.Numeral → Value
  | .int n => .int n
  | .float n => .float n

/-- The integer that a text writes, a line feed at its end apart. -/
def integerText? (text : String) : Option Decimal.IntNumeral :=
  match text.toList.reverse with
  | '\n' :: rest => Decimal.IntNumeral.ofChars? rest.reverse
  | _ => Decimal.IntNumeral.ofChars? text.toList

/-- A text as a literal: of an enumeration its value, of an identifier an integer if it reads as
    one, else a string. -/
def textLiteral (type : Option NamedType) (text : String) : Value :=
  match type with
  | some (.enum _) => .enum text
  | some .id =>
    match integerText? text with
    | some n => .int n
    | none => .string text false
  | _ => .string text false

/-- A value that is no collection as a literal of a named type. -/
def leafLiteral (type : Option NamedType) (value : Json String) : Except LiteralError Value :=
  match value with
  | .null => .ok .null
  | .bool b => .ok (.boolean b)
  | .int n => .ok (.int (.ofInt n))
  | .float x =>
    match x.toNumeral? with
    | some numeral => .ok (numeralLiteral numeral)
    | none => .error (if type = some .float then .infinite x else .noLiteral value)
  | .string text => .ok (textLiteral type text)
  | _ => .error (.noLiteral value)

def fieldType (ds : Declarations) (type field : String) : TypeRef :=
  ((ds.inputFields type).find? (·.name = field)).elim (.named "") (·.type)

mutual

/-- A value as a literal of a type. -/
def literal (ds : Declarations) : Json String → TypeRef → Except LiteralError Value
  | .array items, type =>
    match type.nullable with
    | .list item => .list <$> literalItems ds items item
    | _ => leafLiteral (ds.named? type.baseName) (.array items)
  | .object members, type =>
    match ds.named? type.baseName with
    | some (.inputObject _) => .object <$> literalFields ds type.baseName members
    | other => leafLiteral other (.object members)
  | value, type => leafLiteral (ds.named? type.baseName) value

/-- The items of a list as literals of a type. -/
def literalItems (ds : Declarations) :
    List (Json String) → TypeRef → Except LiteralError (List Value)
  | [], _ => .ok []
  | item :: rest, type => do
    let value ← literal ds item type
    return value :: (← literalItems ds rest type)

/-- The fields of an object as literals of the types that they have in an input type. -/
def literalFields (ds : Declarations) (type : String) :
    List (String × Json String) → Except LiteralError (List (String × Value))
  | [] => .ok []
  | (name, member) :: rest => do
    let value ← literal ds member (fieldType ds type name)
    return (name, value) :: (← literalFields ds type rest)

end

/-! ## Parts of definitions -/

/-- A deprecation as a directive; the reason that is given for none is left out. -/
def deprecatedDirective (reason : Option String) : List Directive :=
  match reason with
  | none => []
  | some text =>
    let arguments : List Argument :=
      if text = BuiltIn.defaultReason then []
      else [{ name := "reason", value := .string text false, valueOffset := 0 }]
    [{ name := "deprecated", arguments, offset := 0 }]

/-- The place where a scalar is specified as a directive. -/
def specifiedByDirective (url : String) : Directive :=
  { name := "specifiedBy"
    arguments := [{ name := "url", value := .string url false, valueOffset := 0 }]
    offset := 0 }

def Input.toDef (ds : Declarations) (d : Input) : Except LiteralError InputValueDef := do
  let defaultValue ← match d.defaultValue with
    | none => pure none
    | some value => some <$> literal ds value d.type
  return { description := d.description, name := d.name, type := d.type
           defaultValue, directives := deprecatedDirective d.deprecation }

def Field.toDef (ds : Declarations) (d : Field) : Except LiteralError FieldDef := do
  let arguments ← d.arguments.mapM (Input.toDef ds)
  return { description := d.description, name := d.name, arguments, type := d.type
           directives := deprecatedDirective d.deprecation }

def EnumValue.toDef (d : EnumValue) : EnumValueDef where
  description := d.description
  name := d.name
  directives := deprecatedDirective d.deprecation

def Body.toDef (ds : Declarations) : Body → Except LiteralError TypeBody
  | .scalar _ => .ok .scalar
  | .object interfaces fields => .object interfaces <$> fields.mapM (Field.toDef ds)
  | .interface interfaces fields => .interface interfaces <$> fields.mapM (Field.toDef ds)
  | .union members => .ok (.union members)
  | .enum values => .ok (.enum (values.map EnumValue.toDef))
  | .inputObject _ fields => .inputObject <$> fields.mapM (Input.toDef ds)

/-- What directives say about a type. -/
def Body.directives : Body → List Directive
  | .scalar (some url) => [specifiedByDirective url]
  | .inputObject true _ => [{ name := "oneOf", arguments := [], offset := 0 }]
  | _ => []

/-! ## Definitions -/

def TypeEntry.toDef (ds : Declarations) (d : TypeEntry) : Except LiteralError TypeDef := do
  return { description := d.description, name := d.name
           directives := d.body.directives, body := ← d.body.toDef ds }

def DirectiveEntry.toDef (ds : Declarations) (d : DirectiveEntry) :
    Except LiteralError DirectiveDef := do
  return { description := d.description, name := d.name
           arguments := ← d.arguments.mapM (Input.toDef ds)
           repeatable := d.repeatable, locations := d.locations }

/-- The definition of the schema, unless it goes without saying: it has no description and the root
    types have their conventional names. -/
def schemaDefs (schema : Schema) : List Definition :=
  let conventional := schema.operations.all fun (kind, name) => name = conventionalName kind
  if schema.description.isNone && conventional then []
  else
    [.schema
      { description := schema.description, directives := []
        operations := schema.operations }]

/-- The schema as a document: its own definition, directives that are not built in, types. -/
def toDocument (ds : Declarations) (schema : Schema) : Except LiteralError Document := do
  let builtIn := BuiltIn.directives.map (·.name)
  let directives := schema.directives.filter (!builtIn.contains ·.name)
  let directives ← directives.mapM (DirectiveEntry.toDef ds)
  let types ← schema.types.mapM (TypeEntry.toDef ds)
  return schemaDefs schema ++ directives.map .directive ++ types.map .type

end Schema

/-! ## From text to canonical document -/

/-- Why a text has no canonical document. -/
inductive DocumentError
  | syntaxFault (e : SyntaxError)
  | rules (violations : List Violation)
  | schema (e : SchemaError)
  | literal (e : Schema.LiteralError)
  /-- The text of the canonical document could not be read back. -/
  | unreadable (text : String) (e : SyntaxError)
deriving Repr

namespace DocumentError

def message (text : String) : DocumentError → String
  | .syntaxFault e => e.fault.message
  | .rules violations => Text.joinWith "\n\n" (violations.map Violation.message)
  | .schema e => e.message text.toList
  | .literal e => e.message
  | .unreadable _ e => e.fault.message

/-- A sentence on the error, followed by the lines around its place if it has one. -/
def report (text : String) : DocumentError → String
  | .syntaxFault e => e.report text
  | .schema e => e.report text.toList
  | .unreadable canonical e => e.report canonical
  | e => e.message text

end DocumentError

mutual

/-- How deep lists and objects nest in a literal. -/
def Value.depth : Value → Nat
  | .list items => Value.itemsDepth items + 1
  | .object fields => Value.fieldsDepth fields + 1
  | _ => 0

def Value.itemsDepth : List Value → Nat
  | [] => 0
  | item :: rest => max item.depth (Value.itemsDepth rest)

def Value.fieldsDepth : List (String × Value) → Nat
  | [] => 0
  | (_, value) :: rest => max value.depth (Value.fieldsDepth rest)

end

/-- The arguments and input fields of a definition. -/
def Definition.inputValues : Definition → List InputValueDef
  | .directive d => d.arguments
  | .type d =>
    match d.body with
    | .object _ fields => fields.flatMap (·.arguments)
    | .interface _ fields => fields.flatMap (·.arguments)
    | .inputObject fields => fields
    | _ => []
  | _ => []

/-- Whether a default in the document nests deeper than a text could write it. -/
def Document.isTooDeep (document : Document) : Bool :=
  document.any fun d => d.inputValues.any fun input =>
    input.defaultValue.any fun value => Parser.maxDepth < value.depth

/-- Checks that the text of a document can be read back. Only two things can be in the way: that
    there are no definitions, and that a default nests too deeply. -/
def Document.checkReadable (document : Document) : Except DocumentError Unit :=
  if document.isEmpty || document.isTooDeep then
    let text := document.print
    (fun _ => ()) <$> (Document.parse text).mapError (.unreadable text)
  else .ok ()

/-- A document that keeps to the rules, written anew from the schema that it declares. -/
def Document.rebuilt (document : Document) : Except DocumentError Document := do
  let violations := document.violations
  if violations.isEmpty then
    let schema ← (Schema.ofDocument document).mapError .schema
    (schema.toDocument (Declarations.ofDocument document)).mapError .literal
  else .error (.rules violations)

/-- The canonical form of a document that keeps to the rules. -/
def Document.canonical (document : Document) : Except DocumentError Document := do
  let result ← document.rebuilt
  result.checkReadable
  return result

/-- The canonical document of a text. -/
def Document.ofText (text : String) : Except DocumentError Document := do
  let document ← (Document.parse text).mapError .syntaxFault
  document.canonical

end SchemaClasses
