import SchemaClasses.Schema.Declarations
import SchemaClasses.Document.Excerpt

/-!
# Default values

A literal as a value of a type. A literal that does not fit its type has no value; in an input
object the fields of the type, with their defaults, take the place of those of the literal.
-/

namespace SchemaClasses

/-! ## Errors -/

/-- Why a document that keeps to the rules declares no schema. -/
inductive SchemaError
  /-- A literal that does not fit the argument that it is given for. -/
  | invalidArgument (name : String) (value : Value) (offset : Nat)
  /-- Null for an argument that excludes it. -/
  | nullArgument (name : String) (type : TypeRef) (offset : Nat)
  | missingArgument (name : String) (type : TypeRef) (offset : Nat)
  /-- A value for a type that has none. -/
  | noInputType (name : String)
  | argumentNotInput
  | fieldNotOutput
  | inputFieldNotInput
  | memberNotObject (union : String)
  | parentNotInterface (type : String)
  /-- A default that takes the defaults of its own type. -/
  | endlessDefault (type : String)
  /-- An error in the fields of a type. -/
  | inFields (type : String) (cause : SchemaError)
deriving Repr

namespace SchemaError

/-- Whether the error is a default that takes the defaults of its own type, wherever it is. -/
def isEndless : SchemaError → Bool
  | .endlessDefault _ => true
  | .inFields _ cause => cause.isEndless
  | _ => false

/-- Whether the error is one of an applied directive, wherever it is. -/
def isLocated : SchemaError → Bool
  | .invalidArgument .. | .nullArgument .. | .missingArgument .. => true
  | .inFields _ cause => cause.isLocated
  | _ => false

/-- A sentence on the error, followed by the lines around its place if it has one. Within the
    fields of a type the place belongs to the sentence. -/
def reportAndPlace (text : List Char) : SchemaError → String × Option Nat
  | .invalidArgument name value offset =>
    (s!"Argument '{name}' has invalid value {value.print}.", some offset)
  | .nullArgument name type offset =>
    (s!"Argument '{name}' of non-null type '{type.print}' must not be null.", some offset)
  | .missingArgument name type offset =>
    (s!"Argument '{name}' of required type '{type.print}' was not provided.", some offset)
  | .noInputType name => (s!"Unexpected input type: {name}.", none)
  | .argumentNotInput => ("Argument type must be a GraphQL input type.", none)
  | .fieldNotOutput => ("Field type must be an output type.", none)
  | .inputFieldNotInput => ("Input field type must be a GraphQL input type.", none)
  | .memberNotObject union =>
    (s!"{union} types must be specified as a collection of GraphQLObjectType instances.", none)
  | .parentNotInterface type =>
    (s!"{type} interfaces must be specified as a collection of GraphQLInterfaceType instances.",
      none)
  | .endlessDefault type => (s!"{type} has a default value that refers to itself.", none)
  | .inFields type cause =>
    let (message, place) := reportAndPlace text cause
    let full := match place with
      | some offset => message ++ "\n\n" ++ excerpt text offset
      | none => message
    (s!"{type} fields cannot be resolved. {full}", none)

def message (text : List Char) (e : SchemaError) : String :=
  (e.reportAndPlace text).1

def report (text : List Char) (e : SchemaError) : String :=
  match e.reportAndPlace text with
  | (message, some offset) => message ++ "\n\n" ++ excerpt text offset
  | (message, none) => message

end SchemaError

/-- How the fields of an input type are found. -/
abbrev FieldsOf := String → Except SchemaError (List Schema.Input)

/-- Why a literal has no value: it does not fit, or the type cannot be used. -/
inductive Misfit
  | unfit
  | broken (e : SchemaError)
deriving Repr

/-! ## Literals without a type -/

mutual

/-- The value of a literal by itself; an enumeration value is its name, an integer of too many
    digits is no number. -/
def Value.untyped : Value → Json String
  | .variable _ => .null
  | .int n => if n.isReadable then .int n.toInt else .float .nan
  | .float n => .float n.toBinary64
  | .string content _ => .string content
  | .boolean b => .bool b
  | .null => .null
  | .enum name => .string name
  | .list items => .array (Value.untypedItems items)
  | .object fields => .object (Value.untypedFields fields)

def Value.untypedItems : List Value → List (Json String)
  | [] => []
  | item :: rest => item.untyped :: Value.untypedItems rest

def Value.untypedFields : List (String × Value) → List (String × Json String)
  | [] => []
  | (name, value) :: rest => (name, value.untyped) :: Value.untypedFields rest

end

/-! ## Literals of named types -/

def fits32 (n : Int) : Bool :=
  -2147483648 ≤ n && n ≤ 2147483647

/-- The value of a literal, which is not null, as one of the type that the name stands for. Objects
    of input types are not dealt with here. -/
def Value.ofNamed (ds : Declarations) (name : String) (v : Value) : Except Misfit (Json String) :=
  match ds.named? name, v with
  | some .customScalar, v => .ok v.untyped
  | some .string, .string content _ => .ok (.string content)
  | some .int, .int n => if fits32 n.toInt then .ok (.int n.toInt) else .error .unfit
  | some .float, .int n => .ok (.float n.toBinary64)
  | some .float, .float n => .ok (.float n.toBinary64)
  | some .boolean, .boolean b => .ok (.bool b)
  | some .id, .string content _ => .ok (.string content)
  | some .id, .int n => .ok (.string n.text)
  | some (.enum values), .enum value =>
    if values.contains value then .ok (.string value) else .error .unfit
  | some type, _ => if type.isInput then .error .unfit else .error (.broken (.noInputType name))
  | none, _ => .error (.broken (.noInputType name))

/-! ## Input objects -/

/-- A value in as many lists of one item. -/
def wrapLists : Nat → Json String → Json String
  | 0, value => value
  | depth + 1, value => .array [wrapLists depth value]

/-- The fields of an input object: for each field of the type, in order, the value given or the
    default. A field that excludes null must have one of them. -/
def collectFields (given : List (String × (TypeRef → Except Misfit (Json String)))) :
    List Schema.Input → Except Misfit (List (String × Json String))
  | [] => .ok []
  | field :: rest =>
    match given.lookup field.name, field.defaultValue with
    | some value, _ => do
      let value ← value field.type
      return (field.name, value) :: (← collectFields given rest)
    | none, some value => do
      return (field.name, value) :: (← collectFields given rest)
    | none, none =>
      if field.type.isNonNull then .error .unfit else collectFields given rest

/-- Whether an object has exactly one field, and that one is not null. -/
def hasOneField : List (String × Json String) → Bool
  | [(_, .null)] => false
  | [_] => true
  | _ => false

/-- The value of an object literal as one of the type that the name stands for. -/
def Value.objectOfNamed (ds : Declarations) (fieldsOf : FieldsOf) (name : String)
    (fields : List (String × Value))
    (given : List (String × (TypeRef → Except Misfit (Json String)))) :
    Except Misfit (Json String) :=
  match ds.named? name with
  | some (.inputObject oneOf) => do
    let declared ← (fieldsOf name).mapError .broken
    let members ← collectFields given declared
    if oneOf && !hasOneField members then .error .unfit else return .object members
  | _ => Value.ofNamed ds name (.object fields)

/-! ## Literals of any type -/

mutual

/-- The value of a literal as one of a type. A literal that is no list stands for the list that
    holds it alone. `fieldsOf` finds the fields of an input type. -/
def Value.ofType (ds : Declarations) (fieldsOf : FieldsOf) :
    Value → TypeRef → Except Misfit (Json String)
  | .null, type => if type.isNonNull then .error .unfit else .ok .null
  | .list items, type =>
    match type.nullable with
    | .list item => .array <$> Value.itemsOfType ds fieldsOf items item
    | _ => Value.ofNamed ds type.baseName (.list items)
  | .object fields, type =>
    wrapLists type.listDepth <$>
      Value.objectOfNamed ds fieldsOf type.baseName fields (Value.fieldsOfType ds fieldsOf fields)
  | v, type => wrapLists type.listDepth <$> Value.ofNamed ds type.baseName v

def Value.itemsOfType (ds : Declarations) (fieldsOf : FieldsOf) :
    List Value → TypeRef → Except Misfit (List (Json String))
  | [], _ => .ok []
  | item :: rest, type => do
    let value ← Value.ofType ds fieldsOf item type
    return value :: (← Value.itemsOfType ds fieldsOf rest type)

/-- For each field of an object literal its value as one of a type yet to be known. -/
def Value.fieldsOfType (ds : Declarations) (fieldsOf : FieldsOf) :
    List (String × Value) → List (String × (TypeRef → Except Misfit (Json String)))
  | [] => []
  | (name, value) :: rest =>
    (name, Value.ofType ds fieldsOf value) :: Value.fieldsOfType ds fieldsOf rest

end

/-- The default of an argument or an input field: a literal that does not fit is dropped. -/
def Value.asDefault (ds : Declarations) (fieldsOf : FieldsOf) (type : TypeRef) (v : Value) :
    Except SchemaError (Option (Json String)) :=
  match Value.ofType ds fieldsOf v type with
  | .ok value => .ok (some value)
  | .error .unfit => .ok none
  | .error (.broken e) => .error e

end SchemaClasses
