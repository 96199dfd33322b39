import SchemaClasses.Schema.BuiltIn
import SchemaClasses.Schema.Suggestion
import SchemaClasses.Document.Printer
import SchemaClasses.Keyed

/-!
# Rules for schema documents

What a document must keep to before a schema is made of it. `violations` lists all that it breaks,
in document order; at one node a rule that looks at the node itself comes before what its parts
break.
-/

namespace SchemaClasses

/-! ## Violations -/

/-- What a type can be. -/
inductive TypeKind
  | scalar
  | object
  | interface
  | union
  | enum
  | inputObject
deriving DecidableEq, Repr

def TypeBody.kind : TypeBody → TypeKind
  | .scalar => .scalar
  | .object .. => .object
  | .interface .. => .interface
  | .union .. => .union
  | .enum .. => .enum
  | .inputObject .. => .inputObject

def TypeKind.label : TypeKind → String
  | .scalar => "scalar"
  | .object => "object"
  | .interface => "interface"
  | .union => "union"
  | .enum => "enum"
  | .inputObject => "input object"

/-- A rule that a document breaks. -/
inductive Violation
  | severalSchemas
  | repeatedOperation (kind : OperationKind)
  | repeatedType (name : String)
  | repeatedEnumValue (type value : String)
  | repeatedField (type field : String)
  /-- The owner is a field with its type, or a directive. -/
  | repeatedArgumentDef (owner argument : String)
  | repeatedDirectiveDef (name : String)
  | unknownType (name : String) (known : List String)
  | unknownDirective (name : String)
  | misplacedDirective (name place : String)
  | repeatedDirective (name : String)
  | extendsOtherKind (kind : TypeKind) (name : String)
  | extendsUndefined (name : String) (known : List String)
  | unknownArgument (argument directive : String) (known : List String)
  | repeatedArgument (name : String)
  | repeatedInputField (name : String)
  | missingArgument (directive argument : String) (type : TypeRef)
deriving DecidableEq, Repr

def Violation.message : Violation → String
  | .severalSchemas => "Must provide only one schema definition."
  | .repeatedOperation kind => s!"There can be only one {kind.label} type in schema."
  | .repeatedType name => s!"There can be only one type named '{name}'."
  | .repeatedEnumValue type value => s!"Enum value '{type}.{value}' can only be defined once."
  | .repeatedField type field => s!"Field '{type}.{field}' can only be defined once."
  | .repeatedArgumentDef owner argument =>
    s!"Argument '{owner}({argument}:)' can only be defined once."
  | .repeatedDirectiveDef name => s!"There can be only one directive named '@{name}'."
  | .unknownType name known =>
    s!"Unknown type '{name}'." ++ Suggestion.question name known
  | .unknownDirective name => s!"Unknown directive '@{name}'."
  | .misplacedDirective name place => s!"Directive '@{name}' may not be used on {place}."
  | .repeatedDirective name =>
    s!"The directive '@{name}' can only be used once at this location."
  | .extendsOtherKind kind name => s!"Cannot extend non-{kind.label} type '{name}'."
  | .extendsUndefined name known =>
    s!"Cannot extend type '{name}' because it is not defined." ++ Suggestion.question name known
  | .unknownArgument argument directive known =>
    s!"Unknown argument '{argument}' on directive '@{directive}'."
      ++ Suggestion.question argument known
  | .repeatedArgument name => s!"There can be only one argument named '{name}'."
  | .repeatedInputField name => s!"There can be only one input field named '{name}'."
  | .missingArgument directive argument type =>
    s!"Directive '@{directive}' argument '{argument}' of type '{type.print}' is required, "
      ++ "but it was not provided."

namespace Rules

/-! ## Repetition -/

/-- The names that were there before, each time that they come up again. -/
def repeats (seen : List String) : List String → List String
  | [] => []
  | name :: rest =>
    if seen.contains name then name :: repeats seen rest
    else repeats (name :: seen) rest

/-- The names that come up more than once, each listed once. -/
def repeatedNames (names : List String) : List String :=
  (Suggestion.distinct names).filter fun name => 1 < names.count name

/-! ## Declarations of a document -/

def typeDefs (document : Document) : List TypeDef :=
  document.filterMap fun
    | .type d => some d
    | _ => none

def directiveDefs (document : Document) : List DirectiveDef :=
  document.filterMap fun
    | .directive d => some d
    | _ => none

/-- The definitions and extensions of types with this name. -/
def partsOf (name : String) (document : Document) : List TypeDef :=
  document.filterMap fun
    | .type d => if d.name = name then some d else none
    | .typeExtension d => if d.name = name then some d else none
    | _ => none

/-- The definitions and extensions of the schema. -/
def schemaParts (document : Document) : List SchemaDef :=
  document.filterMap fun
    | .schema d => some d
    | .schemaExtension d => some d
    | _ => none

/-- The directive of a name: the last one that the document defines, else the built-in one. -/
def directive? (document : Document) (name : String) : Option DirectiveDef :=
  ((directiveDefs document).reverse.find? (·.name = name)).or
    (BuiltIn.directives.find? (·.name = name))

/-! ## Literals -/

mutual

/-- Fields that an object literal sets twice, at any depth. -/
def inValue : Value → List Violation
  | .list items => inItems items
  | .object fields => inFields [] fields
  | _ => []

/-- Fields set twice within the items of a list. -/
def inItems : List Value → List Violation
  | [] => []
  | item :: rest => inValue item ++ inItems rest

/-- Fields set twice in an object, after fields with the names `seen`. -/
def inFields (seen : List String) : List (String × Value) → List Violation
  | [] => []
  | (name, value) :: rest =>
    (if seen.contains name then [.repeatedInputField name] else [])
      ++ inValue value ++ inFields (name :: seen) rest

end

def inArguments (arguments : List Argument) : List Violation :=
  arguments.flatMap (inValue ·.value)

/-- Arguments that are given more than once. -/
def repeatedArguments (arguments : List Argument) : List Violation :=
  (repeatedNames (arguments.map (·.name))).map .repeatedArgument

/-! ## Types -/

/-- A type that is neither defined nor, in a definition of the type system, built in. -/
def inTypeName (document : Document) (typeSystem : Bool) (name : String) : List Violation :=
  let defined := (typeDefs document).map (·.name)
  if defined.contains name || (typeSystem && BuiltIn.typeNames.contains name) then []
  else [.unknownType name (if typeSystem then BuiltIn.typeNames ++ defined else defined)]

def inTypeRef (document : Document) (typeSystem : Bool) (type : TypeRef) : List Violation :=
  inTypeName document typeSystem type.baseName

/-! ## Directives -/

/-- A place as messages word it. -/
def placeWords (place : String) : String :=
  place.map fun c => if c = '_' then ' ' else c.toLower

/-- The arguments that a directive cannot go without, with their types. -/
def requiredArguments (d : DirectiveDef) : List (String × TypeRef) :=
  Keyed.ofList ((d.arguments.filter fun a => a.type.isNonNull && a.defaultValue.isNone).map fun a =>
    (a.name, a.type))

def inDirective (document : Document) (place : String) (d : Directive) : List Violation :=
  let declared := directive? document d.name
  let known := match declared with
    | none => [.unknownDirective d.name]
    | some decl =>
      if decl.locations.contains place then [] else [.misplacedDirective d.name (placeWords place)]
  let given := d.arguments.map (·.name)
  let unknown := match declared with
    | none => []
    | some decl =>
      let names := decl.arguments.map (·.name)
      (given.filter (!names.contains ·)).map (.unknownArgument · d.name names)
  let missing := match declared with
    | none => []
    | some decl =>
      ((requiredArguments decl).filter (!given.contains ·.1)).map fun (name, type) =>
        .missingArgument d.name name type
  known ++ unknown ++ repeatedArguments d.arguments ++ inArguments d.arguments ++ missing

def inDirectives (document : Document) (place : String) (ds : List Directive) : List Violation :=
  ds.flatMap (inDirective document place)

/-- Directives that may be applied once and are applied again, after those named `seen`. -/
def repeatedDirectives (document : Document) (seen : List String) (ds : List Directive) :
    List Violation :=
  let single := (ds.map (·.name)).filter fun name =>
    (directive? document name).any (!·.repeatable)
  (repeats seen single).map .repeatedDirective

/-! ## Parts of type definitions -/

def inInputValue (document : Document) (place : String) (d : InputValueDef) : List Violation :=
  repeatedDirectives document [] d.directives
    ++ inTypeRef document true d.type
    ++ (d.defaultValue.map inValue).getD []
    ++ inDirectives document place d.directives

def inField (document : Document) (d : FieldDef) : List Violation :=
  repeatedDirectives document [] d.directives
    ++ d.arguments.flatMap (inInputValue document "ARGUMENT_DEFINITION")
    ++ inTypeRef document true d.type
    ++ inDirectives document "FIELD_DEFINITION" d.directives

def inEnumValue (document : Document) (d : EnumValueDef) : List Violation :=
  repeatedDirectives document [] d.directives ++ inDirectives document "ENUM_VALUE" d.directives

/-- Arguments that a field or a directive declares more than once. -/
def repeatedArgumentDefs (owner : String) (arguments : List InputValueDef) : List Violation :=
  (repeatedNames (arguments.map (·.name))).map (.repeatedArgumentDef owner)

/-! ## Bodies of types -/

def fieldNames : TypeBody → List String
  | .object _ fields => fields.map (·.name)
  | .interface _ fields => fields.map (·.name)
  | .inputObject fields => fields.map (·.name)
  | _ => []

def valueNames : TypeBody → List String
  | .enum values => values.map (·.name)
  | _ => []

/-- The fields with arguments of a type. -/
def outputFields : TypeBody → List FieldDef
  | .object _ fields => fields
  | .interface _ fields => fields
  | _ => []

/-- The place of directives on a type. -/
def typePlace : TypeBody → String
  | .scalar => "SCALAR"
  | .object .. => "OBJECT"
  | .interface .. => "INTERFACE"
  | .union .. => "UNION"
  | .enum .. => "ENUM"
  | .inputObject .. => "INPUT_OBJECT"

/-- Violations of the rules on the names that a type declares, given what `before` declares. -/
def ofTypeNames (before : Document) (d : TypeDef) : List Violation :=
  let earlier := partsOf d.name before
  (repeats (earlier.flatMap (valueNames ·.body)) (valueNames d.body)).map
      (.repeatedEnumValue d.name)
    ++ (repeats (earlier.flatMap (fieldNames ·.body)) (fieldNames d.body)).map
      (.repeatedField d.name)
    ++ (outputFields d.body).flatMap fun f =>
      repeatedArgumentDefs (d.name ++ "." ++ f.name) f.arguments

/-- Directives that are repeated on a type; all its parts are one place. -/
def ofTypeDirectives (document before : Document) (d : TypeDef) : List Violation :=
  repeatedDirectives document
    (((partsOf d.name before).flatMap (·.directives)).map (·.name)) d.directives

/-- Violations in the parts of a type. Input fields of an extension count as arguments. -/
def inTypeParts (document : Document) (isExtension : Bool) (d : TypeDef) : List Violation :=
  let directives := inDirectives document (typePlace d.body) d.directives
  match d.body with
  | .scalar => directives
  | .object parents fields =>
    parents.flatMap (inTypeName document true) ++ directives ++ fields.flatMap (inField document)
  | .interface parents fields =>
    parents.flatMap (inTypeName document true) ++ directives ++ fields.flatMap (inField document)
  | .union members => directives ++ members.flatMap (inTypeName document true)
  | .enum values => directives ++ values.flatMap (inEnumValue document)
  | .inputObject fields =>
    let place := if isExtension then "ARGUMENT_DEFINITION" else "INPUT_FIELD_DEFINITION"
    directives ++ fields.flatMap (inInputValue document place)

/-! ## Executable definitions -/

mutual

def inSelection (document : Document) : Selection → List Violation
  | .field _ arguments directives selections =>
    repeatedDirectives document [] directives ++ repeatedArguments arguments
      ++ inArguments arguments ++ inDirectives document "FIELD" directives
      ++ inSelections document selections
  | .spread _ directives =>
    repeatedDirectives document [] directives
      ++ inDirectives document "FRAGMENT_SPREAD" directives
  | .inline condition directives selections =>
    repeatedDirectives document [] directives
      ++ condition.toList.flatMap (inTypeName document false)
      ++ inDirectives document "INLINE_FRAGMENT" directives
      ++ inSelections document selections

def inSelections (document : Document) : List Selection → List Violation
  | [] => []
  | selection :: rest => inSelection document selection ++ inSelections document rest

end

def inVariable (document : Document) (d : VariableDef) : List Violation :=
  repeatedDirectives document [] d.directives
    ++ inTypeRef document false d.type
    ++ (d.defaultValue.map inValue).getD []
    ++ inDirectives document "VARIABLE_DEFINITION" d.directives

/-- The place of directives on an operation. -/
def operationPlace : OperationKind → String
  | .query => "QUERY"
  | .mutation => "MUTATION"
  | .subscription => "SUBSCRIPTION"

/-! ## Definitions -/

/-- Violations in a definition or an extension of the schema. -/
def inSchema (document before : Document) (d : SchemaDef) : List Violation :=
  let earlier := schemaParts before
  let operations := (earlier ++ [d]).flatMap (·.operations.map (·.1))
  let seen := earlier.flatMap (·.operations.map (·.1))
  let again := ((operations.zipIdx.drop seen.length).filter fun (kind, i) =>
    (operations.take i).contains kind).map (·.1)
  again.map .repeatedOperation
    ++ repeatedDirectives document (earlier.flatMap (·.directives.map (·.name))) d.directives
    ++ inDirectives document "SCHEMA" d.directives
    ++ d.operations.flatMap (inTypeName document true ·.2)

/-- Violations in one definition, given what `before` it defines. -/
def inDefinition (document before : Document) : Definition → List Violation
  | .schema d =>
    let defined := before.any fun
      | .schema _ => true
      | _ => false
    (if defined then [.severalSchemas] else []) ++ inSchema document before d
  | .schemaExtension d => inSchema document before d
  | .type d =>
    (if ((typeDefs before).map (·.name)).contains d.name then [.repeatedType d.name] else [])
      ++ ofTypeNames before d ++ ofTypeDirectives document before d ++ inTypeParts document false d
  | .typeExtension d =>
    let extended := (typeDefs document).reverse.find? (·.name = d.name)
    let possible : List Violation := match extended with
      | some base =>
        if base.body.kind = d.body.kind then [] else [.extendsOtherKind d.body.kind d.name]
      | none => [.extendsUndefined d.name ((typeDefs document).map (·.name))]
    ofTypeNames before d ++ ofTypeDirectives document before d ++ possible
      ++ inTypeParts document true d
  | .directive d =>
    repeatedArgumentDefs ("@" ++ d.name) d.arguments
      ++ (if ((directiveDefs before).map (·.name)).contains d.name
        then [.repeatedDirectiveDef d.name] else [])
      ++ d.arguments.flatMap (inInputValue document "ARGUMENT_DEFINITION")
  | .operation d =>
    repeatedDirectives document [] d.directives
      ++ d.variableDefs.flatMap (inVariable document)
      ++ inDirectives document (operationPlace d.kind) d.directives
      ++ inSelections document d.selections
  | .fragment d =>
    repeatedDirectives document [] d.directives
      ++ inTypeName document false d.condition
      ++ inDirectives document "FRAGMENT_DEFINITION" d.directives
      ++ inSelections document d.selections

/-- Violations in the definitions that follow `before`. -/
def inDefinitions (document before : Document) : List Definition → List Violation
  | [] => []
  | d :: rest => inDefinition document before d ++ inDefinitions document (before ++ [d]) rest

end Rules

/-- All violations of a document, in order. -/
def Document.violations (document : Document) : List Violation :=
  Rules.inDefinitions document [] document

end SchemaClasses
