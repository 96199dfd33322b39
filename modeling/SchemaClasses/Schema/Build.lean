import SchemaClasses.Schema.Default

/-!
# Building schemas

The schema that a document declares, once it keeps to the rules. Types are gone through in document
order, so the first error is the one reported.
-/

namespace SchemaClasses

namespace Schema

/-! ## Applied directives -/

/-- The argument of a directive, which is a string or, unless excluded, null; or its default. -/
def textArgument (d : Directive) (name : String) (type : TypeRef) (default? : Option String) :
    Except SchemaError (Option String) :=
  match d.arguments.reverse.find? (·.name = name) with
  | none =>
    match default? with
    | some text => .ok (some text)
    | none =>
      if type.isNonNull then .error (.missingArgument name type d.offset) else .ok none
  | some argument =>
    match argument.value with
    | .string content _ => .ok (some content)
    | .null =>
      if type.isNonNull then .error (.nullArgument name type argument.valueOffset) else .ok none
    | value => .error (.invalidArgument name value argument.valueOffset)

/-- The reason that directives give for a deprecation, if they deprecate. -/
def deprecationReason (directives : List Directive) : Except SchemaError (Option String) :=
  match directives.find? (·.name = "deprecated") with
  | none => .ok none
  | some d => textArgument d "reason" (.named "String") (some BuiltIn.defaultReason)

/-- Where directives say that a scalar is specified, if they do. -/
def specifiedBy (directives : List Directive) : Except SchemaError (Option String) :=
  match directives.find? (·.name = "specifiedBy") with
  | none => .ok none
  | some d => textArgument d "url" (.nonNull (.named "String")) none

/-! ## Inputs -/

def isInputType (ds : Declarations) (type : TypeRef) : Bool :=
  (ds.named? type.baseName).any NamedType.isInput

def isOutputType (ds : Declarations) (type : TypeRef) : Bool :=
  (ds.named? type.baseName).any NamedType.isOutput

/-- An argument or an input field, with its default as a value of its type; `notInput` is the error
    for a type that has no values. -/
def Input.ofDef (ds : Declarations) (fieldsOf : FieldsOf) (notInput : SchemaError)
    (d : InputValueDef) : Except SchemaError Input := do
  let defaultValue ← match d.defaultValue with
    | none => pure none
    | some value => value.asDefault ds fieldsOf d.type
  let deprecation ← deprecationReason d.directives
  if isInputType ds d.type then
    return { description := d.description, name := d.name, type := d.type, defaultValue
             deprecation }
  else .error notInput

def inputFields (ds : Declarations) (fieldsOf : FieldsOf) (type : String) :
    Except SchemaError (List Input) :=
  ((ds.inputFields type).mapM (Input.ofDef ds fieldsOf .inputFieldNotInput)).mapError
    (.inFields type)

/-! ## Fields of input types -/

/-- The fields of input types, or the errors in them, as far as they are known. -/
abbrev FieldTable := List (String × Except SchemaError (List Input))

namespace FieldTable

/-- The fields of an input type in the table. A type that no table knows has a default that refers
    to itself. -/
def fieldsOf (table : FieldTable) : FieldsOf := fun type =>
  (table.lookup type).getD (.error (.endlessDefault type))

/-- The table with the fields of one more input type, if the table knows those that they need. -/
def add (ds : Declarations) (table : FieldTable) (type : String) : FieldTable :=
  match inputFields ds table.fieldsOf type with
  | .ok fields => (type, .ok fields) :: table
  | .error e => if e.isEndless then table else (type, .error e) :: table

/-- The table with the fields of more input types, each as soon as the table knows those that they
    need. Every round but the last makes at least one type known, so their number is fuel enough.
    Types tend to be declared in the order in which they need each other, or against it, so the
    rounds take turns in their direction. -/
def addAll (ds : Declarations) : (fuel : Nat) → FieldTable → (types : List String) → FieldTable
  | 0, table, _ => table
  | fuel + 1, table, types =>
    let next := types.foldl (add ds) table
    let unknown := types.filter fun type => (next.lookup type).isNone
    if unknown.length < types.length then addAll ds fuel next unknown.reverse else next

/-- The fields of all input types that are declared. -/
def ofDeclarations (ds : Declarations) : FieldTable :=
  let types := ds.types.filter fun d => d.body.kind = .inputObject
  addAll ds (types.length + 1) [] (types.map (·.name))

end FieldTable

/-! ## Arguments -/

def argumentsOf (ds : Declarations) (fieldsOf : FieldsOf) (defs : List InputValueDef) :
    Except SchemaError (List Input) :=
  defs.mapM (Input.ofDef ds fieldsOf .argumentNotInput)

/-! ## Fields and enumeration values -/

def Field.ofDef (ds : Declarations) (fieldsOf : FieldsOf) (d : FieldDef) :
    Except SchemaError Field := do
  let arguments ← argumentsOf ds fieldsOf d.arguments
  let deprecation ← deprecationReason d.directives
  if isOutputType ds d.type then
    return { description := d.description, name := d.name, arguments, type := d.type, deprecation }
  else .error .fieldNotOutput

def outputFields (ds : Declarations) (fieldsOf : FieldsOf) (type : String)
    (defs : List FieldDef) : Except SchemaError (List Field) :=
  (defs.mapM (Field.ofDef ds fieldsOf)).mapError (.inFields type)

def EnumValue.ofDef (d : EnumValueDef) : Except SchemaError EnumValue := do
  return { description := d.description, name := d.name
           deprecation := ← deprecationReason d.directives }

/-! ## Types and directives -/

/-- Checks the directives of a type that are looked at before the types are put together. -/
def checkType (d : TypeDef) : Except SchemaError Unit :=
  match d.body with
  | .scalar => (fun _ => ()) <$> specifiedBy d.directives
  | .enum values => (fun _ => ()) <$> values.mapM EnumValue.ofDef
  | _ => .ok ()

/-- Checks that the parents of a type are interfaces. -/
def checkParents (ds : Declarations) (type : String) (parents : List String) :
    Except SchemaError Unit :=
  if parents.all fun parent => ds.named? parent = some .interface then .ok ()
  else .error (.parentNotInterface type)

def Body.ofDef (ds : Declarations) (fieldsOf : FieldsOf) (d : TypeDef) :
    Except SchemaError Body :=
  match d.body with
  | .scalar => .scalar <$> specifiedBy d.directives
  | .object parents fields => do
    checkParents ds d.name parents
    return .object parents (← outputFields ds fieldsOf d.name fields)
  | .interface parents fields => do
    checkParents ds d.name parents
    return .interface parents (← outputFields ds fieldsOf d.name fields)
  | .union members =>
    if members.all fun member => ds.named? member = some .object then .ok (.union members)
    else .error (.memberNotObject d.name)
  | .enum values => .enum <$> values.mapM EnumValue.ofDef
  | .inputObject _ => .inputObject d.isOneOf <$> fieldsOf d.name

def TypeEntry.ofDef (ds : Declarations) (fieldsOf : FieldsOf) (d : TypeDef) :
    Except SchemaError TypeEntry := do
  return { description := d.description, name := d.name, body := ← Body.ofDef ds fieldsOf d }

def DirectiveEntry.ofDef (ds : Declarations) (fieldsOf : FieldsOf) (d : DirectiveDef) :
    Except SchemaError DirectiveEntry := do
  return { description := d.description, name := d.name
           arguments := ← argumentsOf ds fieldsOf d.arguments
           repeatable := d.repeatable, locations := d.locations }

/-! ## The schema -/

/-- The name that the root type of an operation has by convention. -/
def conventionalName : OperationKind → String
  | .query => "Query"
  | .mutation => "Mutation"
  | .subscription => "Subscription"

/-- The root types by convention: the declared types of the conventional names. -/
def conventionalRoots (ds : Declarations) : List (OperationKind × String) :=
  [OperationKind.query, .mutation, .subscription].filterMap fun kind =>
    (ds.typeDef? (conventionalName kind)).map fun d => (kind, d.name)

/-- The root types: those that the schema and its extensions name and, if no schema is defined,
    those by convention before them. -/
def roots (document : Document) (ds : Declarations) : List (OperationKind × String) :=
  let named := (Rules.schemaParts document).flatMap (·.operations)
  let defined := document.any fun
    | .schema _ => true
    | _ => false
  let candidates := if defined then named else conventionalRoots ds ++ named
  [OperationKind.query, .mutation, .subscription].filterMap fun kind =>
    candidates.find? (·.1 = kind)

/-- The description of the schema. -/
def descriptionOf (document : Document) : Option String :=
  (document.filterMap fun
    | .schema d => some d
    | _ => none).head?.bind (·.description)

/-- The schema of a document that keeps to the rules. -/
def ofDocument (document : Document) : Except SchemaError Schema := do
  let ds := Declarations.ofDocument document
  let fieldsOf := (FieldTable.ofDeclarations ds).fieldsOf
  ds.types.forM checkType
  let directives ← (Rules.directiveDefs document).mapM (DirectiveEntry.ofDef ds fieldsOf)
  let types ← ds.types.mapM (TypeEntry.ofDef ds fieldsOf)
  return { description := descriptionOf document, operations := roots document ds, directives
           types }

end Schema

end SchemaClasses
