import SchemaClasses.Document.Basic
import SchemaClasses.Proofs.Identifiers

/-!
# Names of documents

Whether the names that a document writes are identifiers, as those in a text always are.
-/

namespace SchemaClasses

def TypeRef.wellNamed : TypeRef → Bool
  | .named name => Text.isIdentifier name
  | .list item | .nonNull item => item.wellNamed
  | .foreign _ => true

def InputValueDef.wellNamed (d : InputValueDef) : Bool :=
  Text.isIdentifier d.name && d.type.wellNamed

def FieldDef.wellNamed (d : FieldDef) : Bool :=
  Text.isIdentifier d.name && d.type.wellNamed && d.arguments.all (·.wellNamed)

def TypeBody.wellNamed : TypeBody → Bool
  | .object _ fields | .interface _ fields => fields.all (·.wellNamed)
  | .union members => members.all Text.isIdentifier
  | .inputObject fields => fields.all (·.wellNamed)
  | .scalar | .enum _ => true

def TypeDef.wellNamed (d : TypeDef) : Bool :=
  Text.isIdentifier d.name && d.body.wellNamed

def Definition.wellNamed : Definition → Bool
  | .type d | .typeExtension d => d.wellNamed
  | .directive d => d.arguments.all (·.wellNamed)
  | .schema _ | .schemaExtension _ | .operation _ | .fragment _ => true

/-- Whether the names that become part of the generated code are identifiers. -/
def Document.wellNamed (document : Document) : Bool :=
  document.all (·.wellNamed)

end SchemaClasses
