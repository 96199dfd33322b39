import SchemaClasses.Decimal.Numeral
import SchemaClasses.Text.Basic

/-!
# JSON values

Values of JSON with whole numbers of any size, doubles that may be infinite or no number, and
objects that keep the order of their members. The texts within are strings in values of a schema;
those of settings may hold halves of surrogate pairs.
-/

namespace SchemaClasses

/-- A JSON value with texts of type `τ`. -/
inductive Json (τ : Type)
  | null
  | bool (b : Bool)
  | int (n : Int)
  | float (x : Decimal.Binary64)
  | string (text : τ)
  | array (items : List (Json τ))
  | object (members : List (τ × Json τ))
deriving Repr, Inhabited

namespace Json

/-! ## Kinds -/

def kindName : Json Text → String
  | .null => "NoneType"
  | .bool _ => "bool"
  | .int _ => "int"
  | .float _ => "float"
  | .string _ => "str"
  | .array _ => "list"
  | .object _ => "dict"

/-! ## Truth -/

/-- Whether a value counts as true: all do but null, false, zeros, and what is empty. -/
def isTruthy : Json Text → Bool
  | .null => false
  | .bool b => b
  | .int n => n != 0
  | .float (.finite _ significand _) => significand != 0
  | .float _ => true
  | .string text => !text.isEmpty
  | .array items => !items.isEmpty
  | .object members => !members.isEmpty

/-! ## Equality -/

/-- Whether a double is a given integer. -/
def floatIsInt (n : Int) : Decimal.Binary64 → Bool
  | .finite negative significand shift =>
    n.natAbs * Decimal.pow2 1074 == significand * Decimal.pow2 shift
      && (n == 0 || decide (n < 0) == negative)
  | _ => false

/-- Whether two doubles are equal as numbers: both zeros are, and no number equals itself. -/
def sameFloat : Decimal.Binary64 → Decimal.Binary64 → Bool
  | .nan, _ => false
  | _, .nan => false
  | .finite n s k, .finite n' s' k' => (s == 0 && s' == 0) || (n == n' && s == s' && k == k')
  | .infinity n, .infinity n' => n == n'
  | _, _ => false

/-- Whether both values are no number. As parts of collections they count as equal. -/
def bothNan : Json Text → Json Text → Bool
  | .float .nan, .float .nan => true
  | _, _ => false

/-- The integer that a number or a truth value counts as. -/
def asInt? : Json Text → Option Int
  | .bool b => some (if b then 1 else 0)
  | .int n => some n
  | _ => none

mutual

/-- Whether two values are equal: numbers by value, truth values as one and zero, objects whatever
    the order of their members. -/
def same : Json Text → Json Text → Bool
  | .null, .null => true
  | .string a, .string b => a == b
  | .float x, .float y => sameFloat x y
  | .float x, other => other.asInt?.any (floatIsInt · x)
  | .array xs, .array ys => sameItems xs ys
  | .object xs, .object ys => xs.length == ys.length && sameMembers xs ys
  | one, .float y => one.asInt?.any (floatIsInt · y)
  | one, other => one.asInt?.isSome && one.asInt? == other.asInt?

/-- Whether two lists have equal items in the same order. -/
def sameItems : List (Json Text) → List (Json Text) → Bool
  | [], [] => true
  | x :: xs, y :: ys => (bothNan x y || same x y) && sameItems xs ys
  | _, _ => false

/-- Whether every member of the first list has an equal one in the second. -/
def sameMembers : List (Text × Json Text) → List (Text × Json Text) → Bool
  | [], _ => true
  | (k, v) :: rest, others =>
    (match others.lookup k with
      | some w => bothNan v w || same v w
      | none => false) && sameMembers rest others

end

end Json

end SchemaClasses
