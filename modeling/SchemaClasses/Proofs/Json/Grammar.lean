import Mathlib.Data.List.Induction
import SchemaClasses.Json.Reader
import SchemaClasses.Proofs.Literals.Numerals

/-!
# The grammar of JSON

Which texts are JSON, and which values they have, without regard to how they are read. Besides
standard JSON it has the names of the infinities and of no number, and members may have the same
key. Two parameters limit it: the most digits of an integer and the deepest nesting. A text is JSON
if it is so within some limits.
-/

namespace SchemaClasses

/-- Of the values under one key the last is kept. -/
theorem Keyed.lookup_ofList {κ α : Type} [DecidableEq κ] (pairs : List (κ × α)) (key : κ) :
    (ofList pairs).lookup key = pairs.reverse.lookup key := by
  induction pairs using List.reverseRecOn with
  | nil => rfl
  | append_singleton front pair ih =>
    obtain ⟨other, value⟩ := pair
    have hlast : ofList (front ++ [(other, value)]) = insert other value (ofList front) := by
      rw [ofList, List.foldl_append]
      rfl
    rw [hlast, List.reverse_append, List.reverse_singleton, List.singleton_append, List.lookup_cons]
    by_cases h : key = other
    · rw [h, lookup_insert_self, beq_self_eq_true]
    · rw [lookup_insert_of_ne h, ih, beq_false_of_ne h]

namespace Json

open Decimal (Numeral)

/-! ## White space -/

/-- Only white space is in front of the rest of a text. -/
def Blanks (text rest : List Char) : Prop :=
  ∃ blanks, (∀ c ∈ blanks, isBlank c) ∧ text = blanks ++ rest

/-! ## Strings -/

/-- The text starts with the escape of a second half. -/
def StartsWithLowHalf (text : List Char) : Prop :=
  ∃ a b c d rest unit, text = '\\' :: 'u' :: a :: b :: c :: d :: rest ∧
    hex4? a b c d = some unit ∧ isLowHalf unit

/-- The text is the content of a string and its closing quote in front of the rest. Two escapes are
    one character if they are the halves of a pair, else each of them is one code point. -/
inductive WritesContent : List Char → List CodePoint → List Char → Prop
  | close {rest : List Char} : WritesContent ('"' :: rest) [] rest
  | plain {c : Char} {text rest : List Char} {content : List CodePoint}
    (hquote : c ≠ '"') (hbackslash : c ≠ '\\')
      (hcontrol : 0x20 ≤ c.toNat) (h : WritesContent text content rest) :
    WritesContent (c :: text) (c :: content) rest
  | escape {letter c : Char} {text rest : List Char} {content : List CodePoint}
      (hletter : escapedChar? letter = some c) (h : WritesContent text content rest) :
    WritesContent ('\\' :: letter :: text) (c :: content) rest
  | unit {a b c d : Char} {unit : Nat} {text rest : List Char} {content : List CodePoint}
      (hunit : hex4? a b c d = some unit) (hpair : isHighHalf unit → ¬ StartsWithLowHalf text)
      (h : WritesContent text content rest) :
    WritesContent ('\\' :: 'u' :: a :: b :: c :: d :: text) (unitPoint unit :: content) rest
  | pair {a b c d a' b' c' d' : Char} {high low : Nat} {text rest : List Char}
      {content : List CodePoint}
      (hhigh : hex4? a b c d = some high) (hfirst : isHighHalf high)
      (hlow : hex4? a' b' c' d' = some low) (hsecond : isLowHalf low)
      (h : WritesContent text content rest) :
    WritesContent ('\\' :: 'u' :: a :: b :: c :: d :: '\\' :: 'u' :: a' :: b' :: c' :: d' :: text)
      (pairChar high low :: content) rest

/-! ## Numbers -/

/-- The value of a number: a double if it has a fraction or an exponent. -/
def ofNumeral : Numeral → Json Text
  | .int n => .int n.toInt
  | .float n => .float n.toBinary64

/-- The number of digits of an integer; a double may have as many as it likes. -/
def integerDigits : Numeral → Nat
  | .int n => (Nat.toDigits 10 n.magnitude).length
  | .float _ => 0

/-! ## Values -/

/-- What a piece of a text stands for: a value, the items of an array up to its closing bracket, or
    the members of an object up to its closing brace. -/
inductive Part
  | value (value : Json Text)
  | items (items : List (Json Text))
  | members (members : List (Text × Json Text))

/-- The text is a part in front of the rest. No integer has more than this many digits, and arrays
    and objects nest no deeper than this. -/
inductive Writes (digits : Nat) : (depth : Nat) → List Char → Part → List Char → Prop
  | word {depth : Nat} {word rest : List Char} {value : Json Text} (h : (word, value) ∈ wordValues) :
    Writes digits depth (word ++ rest) (.value value) rest
  | number {depth : Nat} {n : Numeral} {rest : List Char} (h : n.IsLexical)
      (hdigits : integerDigits n ≤ digits) :
    Writes digits depth (n.text.toList ++ rest) (.value (ofNumeral n)) rest
  | string {depth : Nat} {text rest : List Char} {content : List CodePoint}
      (h : WritesContent text content rest) :
    Writes digits depth ('"' :: text) (.value (.string ⟨content⟩)) rest
  | emptyArray {depth : Nat} {text rest : List Char} (hclose : Blanks text (']' :: rest)) :
    Writes digits (depth + 1) ('[' :: text) (.value (.array [])) rest
  | array {depth : Nat} {text first rest : List Char} {items : List (Json Text)}
      (hopen : Blanks text first) (h : Writes digits depth first (.items items) rest) :
    Writes digits (depth + 1) ('[' :: text) (.value (.array items)) rest
  | emptyObject {depth : Nat} {text rest : List Char} (hclose : Blanks text ('\x7d' :: rest)) :
    Writes digits (depth + 1) ('\x7b' :: text) (.value (.object [])) rest
  | object {depth : Nat} {text first rest : List Char} {members : List (Text × Json Text)}
      (hopen : Blanks text first) (h : Writes digits depth first (.members members) rest) :
    Writes digits (depth + 1) ('\x7b' :: text) (.value (.object (Keyed.ofList members))) rest
  | lastItem {depth : Nat} {text after rest : List Char} {item : Json Text}
      (h : Writes digits depth text (.value item) after) (hclose : Blanks after (']' :: rest)) :
    Writes digits depth text (.items [item]) rest
  | item {depth : Nat} {text after between next rest : List Char} {item : Json Text}
      {items : List (Json Text)} (h : Writes digits depth text (.value item) after)
      (hcomma : Blanks after (',' :: between)) (hnext : Blanks between next)
      (hitems : Writes digits depth next (.items items) rest) :
    Writes digits depth text (.items (item :: items)) rest
  | lastMember {depth : Nat} {text afterKey between start after rest : List Char}
      {key : List CodePoint} {value : Json Text} (hkey : WritesContent text key afterKey)
      (hcolon : Blanks afterKey (':' :: between)) (hstart : Blanks between start)
      (h : Writes digits depth start (.value value) after) (hclose : Blanks after ('\x7d' :: rest)) :
    Writes digits depth ('"' :: text) (.members [(⟨key⟩, value)]) rest
  | member {depth : Nat} {text afterKey between start after comma next rest : List Char}
      {key : List CodePoint} {value : Json Text} {members : List (Text × Json Text)}
      (hkey : WritesContent text key afterKey) (hcolon : Blanks afterKey (':' :: between))
      (hstart : Blanks between start) (h : Writes digits depth start (.value value) after)
      (hcomma : Blanks after (',' :: comma)) (hnext : Blanks comma next)
      (hmembers : Writes digits depth next (.members members) rest) :
    Writes digits depth ('"' :: text) (.members ((⟨key⟩, value) :: members)) rest

/-- The text is one value within limits, with white space around it. A text with a byte order mark
    is none, as the mark is not white space. -/
def IsDocument (digits depth : Nat) (text : List Char) (value : Json Text) : Prop :=
  ∃ start after,
    Blanks text start ∧ Writes digits depth start (.value value) after ∧ Blanks after []

/-- The text is JSON with this value, however long its integers are and however deep it nests. -/
def IsJson (text : List Char) (value : Json Text) : Prop :=
  ∃ digits depth, IsDocument digits depth text value

end Json

end SchemaClasses
