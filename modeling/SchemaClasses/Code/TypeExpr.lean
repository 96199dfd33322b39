import SchemaClasses.Document.Basic
import SchemaClasses.Code.Call
import SchemaClasses.Code.Import

/-!
# Type expressions

References to types as calls of wrappers around the name of the type.
-/

namespace SchemaClasses.TypeRef

/-- The name of the class library that wraps a type. -/
def Wrapper.toImport : Wrapper → Import
  | .list => .list
  | .nonNull => .nonNull

/-- The call of a wrapper on an expression. -/
def Wrapper.wrap (w : Wrapper) (inner : String) : String :=
  w.toImport.text ++ "(" ++ inner ++ ")"

/-- The reference as source text, or the kind of the node at its bottom if that is no type. -/
def emit : TypeRef → Except NodeKind String
  | .named name => .ok name
  | .list item => Wrapper.list.wrap <$> item.emit
  | .nonNull item => Wrapper.nonNull.wrap <$> item.emit
  | .foreign kind => .error kind

/-- The wrappers that occur in a reference, in alphabetical order. -/
def wrapperNames (t : TypeRef) : List Import :=
  Import.sorted (t.wrappers.map Wrapper.toImport)

/-- The names of the class library that a field of this type needs. -/
def imports (t : TypeRef) : List Import :=
  .field :: (t.wrappers.map Wrapper.toImport ++ (Import.ofScalar? t.baseName).toList)

end SchemaClasses.TypeRef
