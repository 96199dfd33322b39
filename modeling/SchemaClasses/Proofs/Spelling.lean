import SchemaClasses.Document.Parser
import SchemaClasses.Proofs.Grounded
import SchemaClasses.Proofs.WellNamed

/-!
# Spelled documents

What the grammar asks of the names and types of definitions, those included that leave no trace in
the generated code. A document that is spelled so has identifiers where the generated code has
names.
-/

namespace SchemaClasses

/-! ## Types -/

/-- A type as it can be spelled: within so many lists at most, and nowhere marked twice. -/
inductive TypeRef.IsSpelled : Nat → TypeRef → Prop
  | named {depth : Nat} {name : String} (h : Text.isIdentifier name) :
    IsSpelled depth (.named name)
  | list {depth : Nat} {item : TypeRef} (h : IsSpelled depth item) :
    IsSpelled (depth + 1) (.list item)
  | nonNull {depth : Nat} {item : TypeRef} (h : IsSpelled depth item)
    (hmark : item.isNonNull = false) : IsSpelled depth (.nonNull item)

/-! ## Definitions -/

structure InputValueDef.IsSpelled (d : InputValueDef) : Prop where
  name : Text.isIdentifier d.name
  type : d.type.IsSpelled Parser.maxDepth

structure FieldDef.IsSpelled (d : FieldDef) : Prop where
  name : Text.isIdentifier d.name
  arguments : ∀ argument ∈ d.arguments, argument.IsSpelled
  type : d.type.IsSpelled Parser.maxDepth

structure EnumValueDef.IsSpelled (d : EnumValueDef) : Prop where
  name : Text.isIdentifier d.name
  word : d.name ∉ ["true", "false", "null"]

def TypeBody.IsSpelled : TypeBody → Prop
  | .scalar => True
  | .object parents fields | .interface parents fields =>
    (∀ parent ∈ parents, Text.isIdentifier parent) ∧ ∀ d ∈ fields, d.IsSpelled
  | .union members => ∀ member ∈ members, Text.isIdentifier member
  | .enum values => ∀ d ∈ values, d.IsSpelled
  | .inputObject fields => ∀ d ∈ fields, d.IsSpelled

structure TypeDef.IsSpelled (d : TypeDef) : Prop where
  name : Text.isIdentifier d.name
  body : d.body.IsSpelled

structure DirectiveDef.IsSpelled (d : DirectiveDef) : Prop where
  name : Text.isIdentifier d.name
  arguments : ∀ argument ∈ d.arguments, argument.IsSpelled
  locations : d.locations ≠ [] ∧ ∀ place ∈ d.locations, place ∈ BuiltIn.directiveLocations

/-- The root types of a schema are named. -/
def SchemaDef.IsSpelled (d : SchemaDef) : Prop :=
  ∀ operation ∈ d.operations, Text.isIdentifier operation.2

def Definition.IsSpelled : Definition → Prop
  | .schema d => d.operations ≠ [] ∧ d.IsSpelled
  | .schemaExtension d => d.IsSpelled
  | .type d | .typeExtension d => d.IsSpelled
  | .directive d => d.IsSpelled
  | .operation _ | .fragment _ => True

/-! ## Names in the generated code -/

/-- A type that is spelled has a name at its bottom. -/
theorem TypeRef.IsSpelled.isGrounded {depth : Nat} {type : TypeRef} (h : type.IsSpelled depth) :
    type.isGrounded := by
  induction h with
  | named => rfl
  | list _ ih | nonNull _ _ ih => exact ih

theorem TypeRef.IsSpelled.wellNamed {depth : Nat} {type : TypeRef} (h : type.IsSpelled depth) :
    type.wellNamed := by
  induction h with
  | named h => exact h
  | list _ ih | nonNull _ _ ih => exact ih

theorem InputValueDef.IsSpelled.wellNamed {d : InputValueDef} (h : d.IsSpelled) : d.wellNamed :=
  Bool.and_eq_true_iff.mpr ⟨h.name, h.type.wellNamed⟩

theorem FieldDef.IsSpelled.wellNamed {d : FieldDef} (h : d.IsSpelled) : d.wellNamed := by
  rw [FieldDef.wellNamed, h.name, h.type.wellNamed,
    List.all_eq_true.mpr fun d hd => (h.arguments d hd).wellNamed]
  rfl

theorem TypeBody.IsSpelled.wellNamed {body : TypeBody} (h : body.IsSpelled) : body.wellNamed := by
  cases body with
  | scalar | enum values => rfl
  | object parents fields | interface parents fields =>
    exact List.all_eq_true.mpr fun d hd => (h.2 d hd).wellNamed
  | union members => exact List.all_eq_true.mpr h
  | inputObject fields => exact List.all_eq_true.mpr fun d hd => (h d hd).wellNamed

/-- Where the generated code has names, the grammar asks for identifiers. -/
theorem Definition.IsSpelled.wellNamed {d : Definition} (h : d.IsSpelled) : d.wellNamed := by
  cases d with
  | type d | typeExtension d => exact Bool.and_eq_true_iff.mpr ⟨h.name, h.body.wellNamed⟩
  | directive d => exact List.all_eq_true.mpr fun d hd => (h.arguments d hd).wellNamed
  | schema | schemaExtension | operation | fragment => rfl

end SchemaClasses
