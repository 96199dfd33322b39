import SchemaClasses.Proofs.Spelling
import SchemaClasses.Schema.Canonical

/-!
# What can be written

Definitions of types, directives and the schema that can be written and read back: they are spelled
as the grammar asks, and their literals are constants that are written in one way only.
-/

namespace SchemaClasses

/-! ## Literals -/

/-- A constant as it can be written and read back: names are identifiers, those of enumeration
    values none of the three words, numbers have all of their parts, and strings are quoted. -/
inductive Value.IsWritable : Value → Prop
  | int (n : Decimal.IntNumeral) : IsWritable (.int n)
  | float {n : Decimal.FloatNumeral} (h : n.IsLexical) : IsWritable (.float n)
  | string (content : String) : IsWritable (.string content false)
  | boolean (b : Bool) : IsWritable (.boolean b)
  | null : IsWritable .null
  | enum {name : String} (h : Text.isIdentifier name) (hword : name ∉ ["true", "false", "null"]) :
    IsWritable (.enum name)
  | list {items : List Value} (h : ∀ item ∈ items, IsWritable item) : IsWritable (.list items)
  | object {fields : List (String × Value)} (hnames : ∀ field ∈ fields, Text.isIdentifier field.1)
    (h : ∀ field ∈ fields, IsWritable field.2) : IsWritable (.object fields)

/-! ## Directives -/

structure Argument.IsWritable (a : Argument) : Prop where
  name : Text.isIdentifier a.name
  value : a.value.IsWritable
  depth : a.value.depth ≤ Parser.maxDepth

structure Directive.IsWritable (d : Directive) : Prop where
  name : Text.isIdentifier d.name
  arguments : ∀ a ∈ d.arguments, a.IsWritable

/-! ## Definitions -/

/-- Nothing is said of how deep the default nests. -/
structure InputValueDef.IsWritable (d : InputValueDef) : Prop extends d.IsSpelled where
  defaultValue : ∀ v ∈ d.defaultValue, v.IsWritable
  directives : ∀ a ∈ d.directives, a.IsWritable

structure FieldDef.IsWritable (d : FieldDef) : Prop where
  name : Text.isIdentifier d.name
  arguments : ∀ a ∈ d.arguments, a.IsWritable
  type : d.type.IsSpelled Parser.maxDepth
  directives : ∀ a ∈ d.directives, a.IsWritable

structure EnumValueDef.IsWritable (d : EnumValueDef) : Prop extends d.IsSpelled where
  directives : ∀ a ∈ d.directives, a.IsWritable

def TypeBody.IsWritable : TypeBody → Prop
  | .scalar => True
  | .object parents fields | .interface parents fields =>
    (∀ parent ∈ parents, Text.isIdentifier parent) ∧ ∀ d ∈ fields, d.IsWritable
  | .union members => ∀ member ∈ members, Text.isIdentifier member
  | .enum values => ∀ d ∈ values, d.IsWritable
  | .inputObject fields => ∀ d ∈ fields, d.IsWritable

structure TypeDef.IsWritable (d : TypeDef) : Prop where
  name : Text.isIdentifier d.name
  directives : ∀ a ∈ d.directives, a.IsWritable
  body : d.body.IsWritable

structure DirectiveDef.IsWritable (d : DirectiveDef) : Prop where
  name : Text.isIdentifier d.name
  arguments : ∀ a ∈ d.arguments, a.IsWritable
  locations : d.locations ≠ [] ∧ ∀ place ∈ d.locations, place ∈ BuiltIn.directiveLocations

structure SchemaDef.IsWritable (d : SchemaDef) : Prop where
  directives : ∀ a ∈ d.directives, a.IsWritable
  operations : d.operations ≠ [] ∧ d.IsSpelled

/-- A definition as it can be written and read back. Extensions and executable definitions are not
    written into canonical documents and left out here. -/
def Definition.IsWritable : Definition → Prop
  | .schema d => d.IsWritable
  | .type d => d.IsWritable
  | .directive d => d.IsWritable
  | .schemaExtension _ | .typeExtension _ | .operation _ | .fragment _ => False

/-! ## Spelling -/

theorem FieldDef.IsWritable.spelled {d : FieldDef} (h : d.IsWritable) : d.IsSpelled :=
  ⟨h.name, fun a ha => (h.arguments a ha).toIsSpelled, h.type⟩

theorem TypeBody.IsWritable.spelled {body : TypeBody} (h : body.IsWritable) : body.IsSpelled := by
  cases body with
  | scalar => trivial
  | object parents fields | interface parents fields =>
    exact ⟨h.1, fun d hd => (h.2 d hd).spelled⟩
  | union members => exact h
  | enum values => exact fun d hd => (h d hd).toIsSpelled
  | inputObject fields => exact fun d hd => (h d hd).toIsSpelled

/-- What can be written is spelled as the grammar asks. -/
theorem Definition.IsWritable.spelled {d : Definition} (h : d.IsWritable) : d.IsSpelled := by
  cases d with
  | schema d => exact h.operations
  | type d => exact ⟨h.name, h.body.spelled⟩
  | directive d => exact ⟨h.name, fun a ha => (h.arguments a ha).toIsSpelled, h.locations⟩
  | schemaExtension | typeExtension | operation | fragment => exact h.elim

end SchemaClasses
