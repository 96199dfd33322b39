import SchemaClasses.Document.Basic
import SchemaClasses.Json.Basic

/-!
# Schemas

What a document declares once extensions are merged into their types, defaults are values of their
types, and of the directives only those are left that say something about a declaration.
-/

namespace SchemaClasses

namespace Schema

/-- An argument or an input field. -/
structure Input where
  description : Option String
  name : String
  type : TypeRef
  /-- The default as a value of the type; none if there is no default, or none that fits. -/
  defaultValue : Option (Json String)
  /-- The reason of the deprecation, if there is one. -/
  deprecation : Option String
deriving Repr, Inhabited

/-- A field of an object or interface type. -/
structure Field where
  description : Option String
  name : String
  arguments : List Input
  type : TypeRef
  deprecation : Option String
deriving Repr, Inhabited

/-- A value of an enumeration. -/
structure EnumValue where
  description : Option String
  name : String
  deprecation : Option String
deriving Repr, Inhabited

/-- What a type consists of. -/
inductive Body
  /-- A scalar, and where it is specified, if that is said. -/
  | scalar (specifiedBy : Option String)
  | object (interfaces : List String) (fields : List Field)
  | interface (interfaces : List String) (fields : List Field)
  | union (members : List String)
  | enum (values : List EnumValue)
  /-- An input type, and whether its values have exactly one field. -/
  | inputObject (oneOf : Bool) (fields : List Input)
deriving Repr, Inhabited

/-- A type. -/
structure TypeEntry where
  description : Option String
  name : String
  body : Body
deriving Repr, Inhabited

/-- A directive. -/
structure DirectiveEntry where
  description : Option String
  name : String
  arguments : List Input
  repeatable : Bool
  locations : List String
deriving Repr, Inhabited

end Schema

/-- The declarations of a document. -/
structure Schema where
  description : Option String
  /-- The root types of the operations. -/
  operations : List (OperationKind × String)
  directives : List Schema.DirectiveEntry
  types : List Schema.TypeEntry
deriving Repr, Inhabited

end SchemaClasses
