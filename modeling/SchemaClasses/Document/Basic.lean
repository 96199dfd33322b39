import SchemaClasses.Decimal.Numeral

/-!
# Documents

The syntax trees of schema documents: literals, type references, and the definitions of types,
directives, the schema and executable code.
-/

namespace SchemaClasses

/-! ## Kinds of nodes -/

/-- The kinds of nodes that a message can name. -/
inductive NodeKind
  | name
  | variable
  | variableDefinition
  | field
  | fragmentSpread
  | schemaExtension
  | scalarTypeExtension
  | objectTypeExtension
  | interfaceTypeExtension
  | unionTypeExtension
  | enumTypeExtension
  | inputObjectTypeExtension
deriving DecidableEq, Repr

def NodeKind.label : NodeKind → String
  | .name => "name"
  | .variable => "variable"
  | .variableDefinition => "variable_definition"
  | .field => "field"
  | .fragmentSpread => "fragment_spread"
  | .schemaExtension => "schema_extension"
  | .scalarTypeExtension => "scalar_type_extension"
  | .objectTypeExtension => "object_type_extension"
  | .interfaceTypeExtension => "interface_type_extension"
  | .unionTypeExtension => "union_type_extension"
  | .enumTypeExtension => "enum_type_extension"
  | .inputObjectTypeExtension => "input_object_type_extension"

/-! ## Literals -/

/-- A literal as written. -/
inductive Value
  | variable (name : String)
  | int (n : Decimal.IntNumeral)
  | float (n : Decimal.FloatNumeral)
  /-- A string and whether it is written as a block. -/
  | string (content : String) (block : Bool)
  | boolean (b : Bool)
  | null
  | enum (name : String)
  | list (items : List Value)
  | object (fields : List (String × Value))
deriving Repr, Inhabited

/-! ## Type references -/

/-- A reference to a type. Trees built by hand may hold another kind of node at the bottom. -/
inductive TypeRef
  | named (name : String)
  | list (item : TypeRef)
  | nonNull (item : TypeRef)
  | foreign (kind : NodeKind)
deriving DecidableEq, Repr, Inhabited

/-! ## Directives -/

/-- An argument of an applied directive or a selected field, with the place of its value. -/
structure Argument where
  name : String
  value : Value
  valueOffset : Nat
deriving Repr, Inhabited

/-- An applied directive and its place. -/
structure Directive where
  name : String
  arguments : List Argument
  offset : Nat
deriving Repr, Inhabited

/-! ## Definitions of types -/

/-- An argument of a field or a directive, or a field of an input type. -/
structure InputValueDef where
  description : Option String
  name : String
  type : TypeRef
  defaultValue : Option Value
  directives : List Directive
deriving Repr, Inhabited

/-- A field of an object or interface type. -/
structure FieldDef where
  description : Option String
  name : String
  arguments : List InputValueDef
  type : TypeRef
  directives : List Directive
deriving Repr, Inhabited

/-- A value of an enumeration. -/
structure EnumValueDef where
  description : Option String
  name : String
  directives : List Directive
deriving Repr, Inhabited

/-- What a type consists of. -/
inductive TypeBody
  | scalar
  | object (interfaces : List String) (fields : List FieldDef)
  | interface (interfaces : List String) (fields : List FieldDef)
  | union (members : List String)
  | enum (values : List EnumValueDef)
  | inputObject (fields : List InputValueDef)
deriving Repr, Inhabited

/-- The definition of a type, or the extension of one, which has no description. -/
structure TypeDef where
  description : Option String
  name : String
  directives : List Directive
  body : TypeBody
deriving Repr, Inhabited

/-- The definition of a directive. -/
structure DirectiveDef where
  description : Option String
  name : String
  arguments : List InputValueDef
  repeatable : Bool
  locations : List String
deriving Repr, Inhabited

/-- The operations that a schema can have a root type for. -/
inductive OperationKind
  | query
  | mutation
  | subscription
deriving DecidableEq, Repr, Inhabited

def OperationKind.label : OperationKind → String
  | .query => "query"
  | .mutation => "mutation"
  | .subscription => "subscription"

def OperationKind.ofName? (name : String) : Option OperationKind :=
  [OperationKind.query, .mutation, .subscription].find? (·.label = name)

/-- The definition of the schema, or the extension of it, which has no description. -/
structure SchemaDef where
  description : Option String
  directives : List Directive
  operations : List (OperationKind × String)
deriving Repr, Inhabited

/-! ## Executable definitions -/

/-- One selection of an operation or a fragment. -/
inductive Selection
  | field (name : String) (arguments : List Argument) (directives : List Directive)
      (selections : List Selection)
  | spread (name : String) (directives : List Directive)
  | inline (condition : Option String) (directives : List Directive) (selections : List Selection)
deriving Repr, Inhabited

/-- A variable of an operation. -/
structure VariableDef where
  name : String
  type : TypeRef
  defaultValue : Option Value
  directives : List Directive
deriving Repr, Inhabited

/-- A query, a mutation or a subscription. -/
structure OperationDef where
  kind : OperationKind
  name : Option String
  variableDefs : List VariableDef
  directives : List Directive
  selections : List Selection
deriving Repr, Inhabited

/-- A named fragment on a type. -/
structure FragmentDef where
  name : String
  condition : String
  directives : List Directive
  selections : List Selection
deriving Repr, Inhabited

/-! ## Documents -/

/-- One definition of a document. -/
inductive Definition
  | schema (d : SchemaDef)
  | schemaExtension (d : SchemaDef)
  | type (d : TypeDef)
  | typeExtension (d : TypeDef)
  | directive (d : DirectiveDef)
  | operation (d : OperationDef)
  | fragment (d : FragmentDef)
deriving Repr, Inhabited

/-- The definitions of a document in order. -/
abbrev Document := List Definition

/-! ## Views -/

namespace TypeRef

/-- The two ways to wrap a type. -/
inductive Wrapper
  | list
  | nonNull
deriving DecidableEq, Repr

/-- The wrappers of a reference, outermost first. -/
def wrappers : TypeRef → List Wrapper
  | .list item => .list :: item.wrappers
  | .nonNull item => .nonNull :: item.wrappers
  | _ => []

/-- The name of the type within all wrappers; a foreign node has none. -/
def baseName : TypeRef → String
  | .named name => name
  | .list item => item.baseName
  | .nonNull item => item.baseName
  | .foreign _ => ""

def isNonNull : TypeRef → Bool
  | .nonNull _ => true
  | _ => false

/-- The reference without the marks that exclude null at its front. -/
def nullable : TypeRef → TypeRef
  | .nonNull item => item.nullable
  | t => t

/-- How many lists are around the named type. -/
def listDepth : TypeRef → Nat
  | .list item => item.listDepth + 1
  | .nonNull item => item.listDepth
  | _ => 0

end TypeRef

end SchemaClasses
