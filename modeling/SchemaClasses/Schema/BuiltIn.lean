import SchemaClasses.Document.Basic

/-!
# Built-in declarations

The types and directives that every schema has. A document may define types of the same names, which
has no effect, and directives of the same names, which takes the place of the built-in ones.
-/

namespace SchemaClasses.BuiltIn

/-! ## Types -/

def scalarNames : List String :=
  ["String", "Int", "Float", "Boolean", "ID"]

/-- The built-in object types, which describe the schema itself. -/
def objectNames : List String :=
  ["__Schema", "__Directive", "__Type", "__Field", "__InputValue", "__EnumValue"]

/-- The places that a directive can be applied at. -/
def directiveLocations : List String :=
  ["QUERY", "MUTATION", "SUBSCRIPTION", "FIELD", "FRAGMENT_DEFINITION", "FRAGMENT_SPREAD",
    "INLINE_FRAGMENT", "VARIABLE_DEFINITION", "SCHEMA", "SCALAR", "OBJECT", "FIELD_DEFINITION",
    "ARGUMENT_DEFINITION", "INTERFACE", "UNION", "ENUM", "ENUM_VALUE", "INPUT_OBJECT",
    "INPUT_FIELD_DEFINITION", "DIRECTIVE_DEFINITION"]

def enums : List (String × List String) :=
  [("__DirectiveLocation", directiveLocations),
    ("__TypeKind",
      ["SCALAR", "OBJECT", "INTERFACE", "UNION", "ENUM", "INPUT_OBJECT", "LIST", "NON_NULL"])]

def typeNames : List String :=
  scalarNames ++ objectNames ++ enums.map (·.1)

/-! ## Directives -/

/-- The reason of a deprecation that gives none. -/
def defaultReason : String := "No longer supported"

def argument (name : String) (type : TypeRef) (defaultValue : Option Value) : InputValueDef where
  description := none
  name
  type
  defaultValue
  directives := []

def directive (name : String) (arguments : List InputValueDef) (locations : List String) :
    DirectiveDef where
  description := none
  name
  arguments
  repeatable := false
  locations

def directives : List DirectiveDef :=
  let condition := [argument "if" (.nonNull (.named "Boolean")) none]
  let selections := ["FIELD", "FRAGMENT_SPREAD", "INLINE_FRAGMENT"]
  [directive "include" condition selections,
    directive "skip" condition selections,
    directive "deprecated"
      [argument "reason" (.named "String") (some (.string defaultReason false))]
      ["FIELD_DEFINITION", "ARGUMENT_DEFINITION", "INPUT_FIELD_DEFINITION", "ENUM_VALUE"],
    directive "specifiedBy" [argument "url" (.nonNull (.named "String")) none] ["SCALAR"],
    directive "oneOf" [] ["INPUT_OBJECT"]]

end SchemaClasses.BuiltIn
