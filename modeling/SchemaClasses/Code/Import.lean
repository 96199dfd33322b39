/-!
# Imported names

The names that generated code takes from the class library. Sets of them are lists in which neither
order nor repetition counts; `sorted` is the one list that stands for a set.
-/

namespace SchemaClasses

/-- A name of the class library, in alphabetical order. -/
inductive Import
  | argument
  | boolean
  | enum
  | field
  | float
  | id
  | inputObjectType
  | int
  | interface
  | list
  | nonNull
  | objectType
  | scalar
  | string
  | union
deriving DecidableEq, Repr

namespace Import

/-- How the name is written. -/
def text : Import → String
  | .argument => "Argument"
  | .boolean => "Boolean"
  | .enum => "Enum"
  | .field => "Field"
  | .float => "Float"
  | .id => "ID"
  | .inputObjectType => "InputObjectType"
  | .int => "Int"
  | .interface => "Interface"
  | .list => "List"
  | .nonNull => "NonNull"
  | .objectType => "ObjectType"
  | .scalar => "Scalar"
  | .string => "String"
  | .union => "Union"

/-- All names, in alphabetical order. -/
def all : List Import :=
  [.argument, .boolean, .enum, .field, .float, .id, .inputObjectType, .int, .interface, .list,
    .nonNull, .objectType, .scalar, .string, .union]

theorem mem_all (i : Import) : i ∈ all := by
  cases i <;> decide

/-- The built-in scalar with this name, if there is one. -/
def ofScalar? (name : String) : Option Import :=
  [Import.string, .int, .float, .boolean, .id].find? (·.text = name)

/-- The members of a set in alphabetical order, each once. -/
def sorted (names : List Import) : List Import :=
  all.filter (names.contains ·)

@[simp] theorem mem_sorted {names : List Import} {i : Import} : i ∈ sorted names ↔ i ∈ names := by
  simp [sorted, mem_all]

end Import

end SchemaClasses
