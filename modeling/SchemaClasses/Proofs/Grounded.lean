import SchemaClasses.Document.Basic
import SchemaClasses.Proofs.Literals.Values

/-!
# Grounded documents

What the grammar promises of the definitions of types and directives: types end in a name, no
variable occurs in directives, and the numbers in defaults have all of their parts. The last is of
no account for what is grounded, so it stands by itself.
-/

namespace SchemaClasses

/-! ## Types and directives -/

/-- Whether a reference has a name at its bottom. -/
def TypeRef.isGrounded : TypeRef → Bool
  | .named _ => true
  | .list item | .nonNull item => item.isGrounded
  | .foreign _ => false

/-- No variable occurs in the arguments of the directive. -/
def Directive.IsConstant (d : Directive) : Prop :=
  ∀ argument ∈ d.arguments, ¬ argument.value.HasVariable

def InputValueDef.IsGrounded (d : InputValueDef) : Prop :=
  d.type.isGrounded

structure FieldDef.IsGrounded (d : FieldDef) : Prop where
  type : d.type.isGrounded
  arguments : ∀ argument ∈ d.arguments, argument.IsGrounded
  directives : ∀ directive ∈ d.directives, directive.IsConstant

def TypeBody.IsGrounded : TypeBody → Prop
  | .object _ fields | .interface _ fields => ∀ d ∈ fields, d.IsGrounded
  | .inputObject fields => ∀ d ∈ fields, d.IsGrounded
  | .scalar | .union _ | .enum _ => True

def Definition.IsGrounded : Definition → Prop
  | .type d | .typeExtension d => d.body.IsGrounded
  | .directive d => ∀ argument ∈ d.arguments, argument.IsGrounded
  | .schema _ | .schemaExtension _ | .operation _ | .fragment _ => True

/-- The types in the document end in names, and its directives hold no variables. -/
def Document.IsGrounded (document : Document) : Prop :=
  ∀ definition ∈ document, definition.IsGrounded

/-! ## Defaults -/

/-- The numbers in the default are as a document can hold them. -/
def InputValueDef.IsLexical (d : InputValueDef) : Prop :=
  ∀ v ∈ d.defaultValue, v.IsLexical

def FieldDef.IsLexical (d : FieldDef) : Prop :=
  ∀ argument ∈ d.arguments, argument.IsLexical

def TypeBody.IsLexical : TypeBody → Prop
  | .object _ fields | .interface _ fields => ∀ d ∈ fields, d.IsLexical
  | .inputObject fields => ∀ d ∈ fields, d.IsLexical
  | .scalar | .union _ | .enum _ => True

def Definition.IsLexical : Definition → Prop
  | .type d | .typeExtension d => d.body.IsLexical
  | .directive d => ∀ argument ∈ d.arguments, argument.IsLexical
  | .schema _ | .schemaExtension _ | .operation _ | .fragment _ => True

end SchemaClasses
