import SchemaClasses.Json.Basic
import SchemaClasses.Keyed

/-!
# Reading JSON

One value from a text. Besides standard JSON the names of the infinities and of no number are
read, and of two members with one key the later counts. The first fault is reported with its place,
unless it is only a limit that the text exceeds.
-/

namespace SchemaClasses.Json

/-! ## Faults -/

/-- Why a text is not JSON. -/
inductive Fault
  | expectedValue
  | expectedName
  | expectedColon
  | expectedComma
  | extraData
  | unterminatedString
  | controlCharacter
  | badEscape
  | badUnicodeEscape
  | byteOrderMark
  /-- An integer of more digits than are read. -/
  | tooManyDigits (digits : Nat)
  /-- An array within too many other values. -/
  | tooDeepArray
  /-- An object within too many other values. -/
  | tooDeepObject
deriving DecidableEq, Repr

/-- Whether the text may well be JSON, but exceeds a limit. -/
def Fault.isLimit : Fault → Bool
  | .tooManyDigits _ | .tooDeepArray | .tooDeepObject => true
  | _ => false

def Fault.message : Fault → String
  | .expectedValue => "Expecting value"
  | .expectedName => "Expecting property name enclosed in double quotes"
  | .expectedColon => "Expecting ':' delimiter"
  | .expectedComma => "Expecting ',' delimiter"
  | .extraData => "Extra data"
  | .unterminatedString => "Unterminated string starting at"
  | .controlCharacter => "Invalid control character at"
  | .badEscape => "Invalid \\escape"
  | .badUnicodeEscape => "Invalid \\uXXXX escape"
  | .byteOrderMark => "Unexpected UTF-8 BOM (decode using utf-8-sig)"
  | .tooManyDigits digits =>
    s!"Exceeds the limit ({Decimal.maxDigits} digits) for integer string conversion: value has "
      ++ s!"{digits} digits; use sys.set_int_max_str_digits() to increase the limit"
  | .tooDeepArray =>
    "maximum recursion depth exceeded while decoding a JSON array from a unicode string"
  | .tooDeepObject =>
    "maximum recursion depth exceeded while decoding a JSON object from a unicode string"

/-- A fault and the number of characters before it. -/
structure ReadError where
  fault : Fault
  offset : Nat
deriving DecidableEq, Repr

/-- The line and the column of a place in a text, both counted from one. -/
def lineColumn (text : List Char) (offset : Nat) : Nat × Nat :=
  let before := text.take offset
  (before.count '\n' + 1, (before.reverse.takeWhile (· != '\n')).length + 1)

/-- A sentence on the fault, with its place in the text; that of an exceeded limit does not
    matter. -/
def ReadError.message (text : List Char) (e : ReadError) : String :=
  if e.fault.isLimit then e.fault.message
  else
    let (line, column) := lineColumn text e.offset
    s!"{e.fault.message}: line {line} column {column} (char {e.offset})"

/-! ## Places -/

/-- A place in the text: what is left of it, and how much was before. -/
structure Cursor where
  offset : Nat
  rest : List Char

def Cursor.advance (c : Cursor) (count : Nat) : Cursor :=
  ⟨c.offset + count, c.rest.drop count⟩

def isBlank (c : Char) : Bool :=
  c = ' ' || c = '\t' || c = '\n' || c = '\r'

/-- The place after any white space. -/
def Cursor.skipBlanks (c : Cursor) : Cursor :=
  c.advance (c.rest.takeWhile isBlank).length

/-- The fault at this place. -/
def Cursor.fail {α : Type} (c : Cursor) (fault : Fault) : Except ReadError α :=
  .error ⟨fault, c.offset⟩

/-! ## Strings -/

def hexValue? (c : Char) : Option Nat :=
  if c.isDigit then some (c.toNat - '0'.toNat)
  else if 'a' ≤ c && c ≤ 'f' then some (c.toNat - 'a'.toNat + 10)
  else if 'A' ≤ c && c ≤ 'F' then some (c.toNat - 'A'.toNat + 10)
  else none

def hex4? (a b c d : Char) : Option Nat := do
  let a ← hexValue? a
  let b ← hexValue? b
  let c ← hexValue? c
  let d ← hexValue? d
  return ((a * 16 + b) * 16 + c) * 16 + d

def escapedChar? : Char → Option Char
  | '"' => some '"'
  | '\\' => some '\\'
  | '/' => some '/'
  | 'b' => some '\x08'
  | 'f' => some '\x0c'
  | 'n' => some '\n'
  | 'r' => some '\r'
  | 't' => some '\t'
  | _ => none

/-- Whether a code unit is the first half of a pair. -/
def isHighHalf (n : Nat) : Bool := 0xd800 ≤ n && n < 0xdc00

/-- Whether a code unit is the second half of a pair. -/
def isLowHalf (n : Nat) : Bool := 0xdc00 ≤ n && n < 0xe000

/-- The code point of a code unit; a half stays one. -/
def unitPoint (n : Nat) : CodePoint :=
  if isHighHalf n || isLowHalf n then .half (.ofNat 0x800 (n - 0xd800)) else .char (Char.ofNat n)

/-- The character of the two halves of a pair. -/
def pairChar (high low : Nat) : Char :=
  Char.ofNat (0x10000 + (high - 0xd800) * 0x400 + (low - 0xdc00))

/-- The content of a string up to its closing quote and the place after it. `opening` is where the
    string starts, `content` what was read so far, last character first. -/
def readString (opening offset : Nat) (content : List CodePoint) :
    List Char → Except ReadError (Text × Cursor)
  | [] => .error ⟨.unterminatedString, opening⟩
  | '"' :: rest => .ok (⟨content.reverse⟩, ⟨offset + 1, rest⟩)
  | ['\\'] => .error ⟨.unterminatedString, opening⟩
  | '\\' :: 'u' :: a :: b :: c :: d :: '\\' :: 'u' :: a' :: b' :: c' :: d' :: next :: rest =>
    match hex4? a b c d with
    | none => .error ⟨.badUnicodeEscape, offset + 1⟩
    | some unit =>
      if isHighHalf unit then
        match hex4? a' b' c' d' with
        | none => .error ⟨.badUnicodeEscape, offset + 7⟩
        | some second =>
          if isLowHalf second then
            readString opening (offset + 12) (pairChar unit second :: content) (next :: rest)
          else
            readString opening (offset + 6) (unitPoint unit :: content)
              ('\\' :: 'u' :: a' :: b' :: c' :: d' :: next :: rest)
      else
        readString opening (offset + 6) (unitPoint unit :: content)
          ('\\' :: 'u' :: a' :: b' :: c' :: d' :: next :: rest)
  | '\\' :: 'u' :: a :: b :: c :: d :: next :: rest =>
    match hex4? a b c d with
    | none => .error ⟨.badUnicodeEscape, offset + 1⟩
    | some unit => readString opening (offset + 6) (unitPoint unit :: content) (next :: rest)
  | '\\' :: 'u' :: _ => .error ⟨.badUnicodeEscape, offset + 1⟩
  | '\\' :: c :: rest =>
    match escapedChar? c with
    | some char => readString opening (offset + 2) (char :: content) rest
    | none => .error ⟨.badEscape, offset⟩
  | c :: rest =>
    if c.toNat < 0x20 then .error ⟨.controlCharacter, offset⟩
    else readString opening (offset + 1) (c :: content) rest

/-! ## Numbers -/

def leadingDigits (text : List Char) : List Char :=
  text.takeWhile Char.isDigit

/-- The exponent at the front of a text: its letter, sign and digits. -/
def leadingExponent? (text : List Char) : Option Decimal.ExponentPart :=
  match text with
  | letter :: rest =>
    if letter = 'e' || letter = 'E' then
      let (sign, digits) := match rest with
        | '-' :: more => (some true, leadingDigits more)
        | '+' :: more => (some false, leadingDigits more)
        | _ => (none, leadingDigits rest)
      if digits.isEmpty then none
      else some ⟨letter = 'E', sign, digits.filterMap Decimal.Digit.ofChar?⟩
    else none
  | [] => none

/-- The number at a place, without its sign: the whole part, the fraction if a digit follows the
    point, the exponent if it is complete. -/
def readMagnitude (negative : Bool) (c : Cursor) : Except Fault (Json Text × Cursor) :=
  let whole := match c.rest with
    | '0' :: _ => ['0']
    | text => leadingDigits text
  if whole.isEmpty then .error .expectedValue
  else
    let afterWhole := c.advance whole.length
    let fraction := match afterWhole.rest with
      | '.' :: rest => leadingDigits rest
      | _ => []
    let afterFraction :=
      if fraction.isEmpty then afterWhole else afterWhole.advance (fraction.length + 1)
    let exponent := leadingExponent? afterFraction.rest
    let afterAll := match exponent with
      | some part => afterFraction.advance part.chars.length
      | none => afterFraction
    let magnitude := Nat.ofDigitChars 10 whole 0
    if fraction.isEmpty && exponent.isNone then
      if Decimal.maxDigits < whole.length then .error (.tooManyDigits whole.length)
      else .ok (.int (if negative then -(magnitude : Int) else magnitude), afterAll)
    else
      let numeral : Decimal.FloatNumeral :=
        ⟨negative, magnitude, fraction.filterMap Decimal.Digit.ofChar?, exponent⟩
      .ok (.float numeral.toBinary64, afterAll)

/-! ## Values -/

/-- The values that are written as a word. -/
def wordValues : List (List Char × Json Text) :=
  [("null".toList, .null), ("true".toList, .bool true), ("false".toList, .bool false),
    ("NaN".toList, .float .nan), ("Infinity".toList, .float (.infinity false)),
    ("-Infinity".toList, .float (.infinity true))]

/-- The value at a place if it is a word or a number. -/
def readAtom (c : Cursor) : Except ReadError (Json Text × Cursor) :=
  match wordValues.find? fun (word, _) => word.isPrefixOf c.rest with
  | some (word, value) => .ok (value, c.advance word.length)
  | none =>
    let number := match c.rest with
      | '-' :: _ => readMagnitude true (c.advance 1)
      | _ => readMagnitude false c
    number.mapError (⟨·, c.offset⟩)

/-- How deep arrays and objects may nest if nothing else is going on. Each call that the reader is
    called within takes from this, so that a command reads less than a library does. -/
def freeDepth : Nat := 990

mutual

/-- The value at a place, with `fuel` for the values within it, which may nest `depth` levels
    deep. -/
def readValue : (fuel depth : Nat) → Cursor → Except ReadError (Json Text × Cursor)
  | 0, _, c => c.fail .expectedValue
  | fuel + 1, depth, c =>
    match c.rest, depth with
    | '"' :: rest, _ => do
      let (text, after) ← readString c.offset (c.offset + 1) [] rest
      return (.string text, after)
    | '[' :: _, 0 => c.fail .tooDeepArray
    | '[' :: _, depth + 1 =>
      let inside := (c.advance 1).skipBlanks
      match inside.rest with
      | ']' :: _ => .ok (.array [], inside.advance 1)
      | _ => do
        let (items, after) ← readItems fuel depth inside
        return (.array items, after)
    | '\x7b' :: _, 0 => c.fail .tooDeepObject
    | '\x7b' :: _, depth + 1 =>
      let inside := (c.advance 1).skipBlanks
      match inside.rest with
      | '\x7d' :: _ => .ok (.object [], inside.advance 1)
      | _ => do
        let (members, after) ← readMembers fuel depth inside
        return (.object (Keyed.ofList members), after)
    | _, _ => readAtom c

/-- The items of an array from one of them up to the bracket that closes it. -/
def readItems : (fuel depth : Nat) → Cursor → Except ReadError (List (Json Text) × Cursor)
  | 0, _, c => c.fail .expectedValue
  | fuel + 1, depth, c => do
    let (item, after) ← readValue fuel depth c
    let after := after.skipBlanks
    match after.rest with
    | ']' :: _ => return ([item], after.advance 1)
    | ',' :: _ =>
      let (items, last) ← readItems fuel depth (after.advance 1).skipBlanks
      return (item :: items, last)
    | _ => after.fail .expectedComma

/-- The members of an object from one of them up to the brace that closes it. -/
def readMembers : (fuel depth : Nat) → Cursor →
    Except ReadError (List (Text × Json Text) × Cursor)
  | 0, _, c => c.fail .expectedName
  | fuel + 1, depth, c =>
    match c.rest with
    | '"' :: rest => do
      let (key, after) ← readString c.offset (c.offset + 1) [] rest
      let after := after.skipBlanks
      match after.rest with
      | ':' :: _ =>
        let (value, after) ← readValue fuel depth (after.advance 1).skipBlanks
        let after := after.skipBlanks
        match after.rest with
        | '\x7d' :: _ => return ([(key, value)], after.advance 1)
        | ',' :: _ =>
          let (members, last) ← readMembers fuel depth (after.advance 1).skipBlanks
          return ((key, value) :: members, last)
        | _ => after.fail .expectedComma
      | _ => after.fail .expectedColon
    | _ => c.fail .expectedName

end

/-- The value that a text is, white space around it apart, if it nests no deeper than `maxDepth`.
    Every step into a value or on to the next takes a character, so twice the length of the text is
    fuel enough. -/
def read (maxDepth : Nat) (text : List Char) : Except ReadError (Json Text) :=
  match text with
  | '\ufeff' :: _ => .error ⟨.byteOrderMark, 0⟩
  | _ => do
    let (value, after) ← readValue (2 * text.length + 2) maxDepth (Cursor.mk 0 text).skipBlanks
    let after := after.skipBlanks
    if after.rest.isEmpty then return value
    else after.fail .extraData

end SchemaClasses.Json
