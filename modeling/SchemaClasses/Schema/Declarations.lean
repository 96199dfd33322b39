import SchemaClasses.Schema.Basic
import SchemaClasses.Schema.BuiltIn
import SchemaClasses.Schema.Rules

/-!
# Declarations

The types that a document declares, with their extensions merged in, and what a name stands for
among them.
-/

namespace SchemaClasses

/-! ## Merging extensions -/

/-- The body with what an extension of the same kind adds. -/
def TypeBody.extend : TypeBody → TypeBody → TypeBody
  | .object parents fields, .object moreParents more =>
    .object (parents ++ moreParents) (fields ++ more)
  | .interface parents fields, .interface moreParents more =>
    .interface (parents ++ moreParents) (fields ++ more)
  | .union members, .union more => .union (members ++ more)
  | .enum values, .enum more => .enum (values ++ more)
  | .inputObject fields, .inputObject more => .inputObject (fields ++ more)
  | body, _ => body

namespace Document

def extensionsOf (document : Document) (name : String) : List TypeDef :=
  document.filterMap fun
    | .typeExtension d => if d.name = name then some d else none
    | _ => none

/-- The type definition with its extensions merged in, in document order. -/
def merged (document : Document) (d : TypeDef) : TypeDef :=
  { d with body := (document.extensionsOf d.name).foldl (fun body e => body.extend e.body) d.body }

/-- The types that the document declares, with their extensions. Definitions with the names of
    built-in types declare nothing. -/
def declaredTypes (document : Document) : List TypeDef :=
  ((Rules.typeDefs document).filter (!BuiltIn.typeNames.contains ·.name)).map document.merged

end Document

/-- Whether a directive says that the values of an input type have exactly one field. -/
def TypeDef.isOneOf (d : TypeDef) : Bool :=
  d.directives.any (·.name = "oneOf")

/-! ## Names -/

/-- What a type name can stand for, as far as values are concerned. -/
inductive NamedType
  | string
  | int
  | float
  | boolean
  | id
  /-- A scalar of the document, which takes any value. -/
  | customScalar
  | enum (values : List String)
  /-- An input type, and whether its values have exactly one field. -/
  | inputObject (oneOf : Bool)
  | object
  | interface
  | union
deriving DecidableEq, Repr

namespace NamedType

def isInput : NamedType → Bool
  | .object | .interface | .union => false
  | _ => true

def isOutput : NamedType → Bool
  | .inputObject _ => false
  | _ => true

def builtIn? (name : String) : Option NamedType :=
  match name with
  | "String" => some .string
  | "Int" => some .int
  | "Float" => some .float
  | "Boolean" => some .boolean
  | "ID" => some .id
  | _ =>
    if BuiltIn.objectNames.contains name then some .object
    else (BuiltIn.enums.lookup name).map .enum

/-- What a declared type is for values. -/
def ofTypeDef (d : TypeDef) : NamedType :=
  match d.body with
  | .scalar => .customScalar
  | .object .. => .object
  | .interface .. => .interface
  | .union .. => .union
  | .enum values => .enum (values.map (·.name))
  | .inputObject _ => .inputObject d.isOneOf

end NamedType

/-- The declared types by name. -/
structure Declarations where
  types : List TypeDef
deriving Repr, Inhabited

namespace Declarations

def ofDocument (document : Document) : Declarations :=
  ⟨document.declaredTypes⟩

def typeDef? (ds : Declarations) (name : String) : Option TypeDef :=
  ds.types.find? (·.name = name)

/-- What a name stands for. -/
def named? (ds : Declarations) (name : String) : Option NamedType :=
  (NamedType.builtIn? name).or ((ds.typeDef? name).map NamedType.ofTypeDef)

def inputFields (ds : Declarations) (name : String) : List InputValueDef :=
  match (ds.typeDef? name).map TypeDef.body with
  | some (.inputObject fields) => fields
  | _ => []

end Declarations

end SchemaClasses
