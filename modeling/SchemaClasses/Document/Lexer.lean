import SchemaClasses.Document.Token
import SchemaClasses.Document.BlockString
import SchemaClasses.Text.Quoted

/-!
# Reading tokens

A text as the list of its tokens. The list ends with the end of the text, or with the first place
that no token can start or go on at.
-/

namespace SchemaClasses.Token

/-! ## Classes of characters -/

/-- Whether a character between tokens is passed over. -/
def isIgnored (c : Char) : Bool :=
  c = ' ' || c = '\t' || c = ',' || c = '\ufeff' || c = '\n' || c = '\r'

def isLineEnd (c : Char) : Bool :=
  c = '\n' || c = '\r'

def isNameStart (c : Char) : Bool :=
  c.isAlpha || c = '_'

def isNameChar (c : Char) : Bool :=
  c.isAlphanum || c = '_'

/-- Whether a number is the code point of a character. -/
def isScalar (n : Nat) : Bool :=
  n ≤ 0xd7ff || (0xe000 ≤ n && n ≤ 0x10ffff)

def hexValue? (c : Char) : Option Nat :=
  if c.isDigit then some (c.toNat - '0'.toNat)
  else if 'a' ≤ c && c ≤ 'f' then some (c.toNat - 'a'.toNat + 10)
  else if 'A' ≤ c && c ≤ 'F' then some (c.toNat - 'A'.toNat + 10)
  else none

/-- What stands at the front of a text. -/
def found : List Char → Found
  | [] => .nothing
  | c :: _ => .char c

/-- What was read, or a fault and its place, counted from the first character of the token. -/
abbrev Attempt (α : Type) := Except (LexicalFault × Nat) α

/-- What was read and how many characters it takes. -/
abbrev Sized (α : Type) := α × Nat

/-! ## Strings -/

/-- The character that a letter after a backslash stands for. -/
def escapedChar? : Char → Option Char
  | '"' => some '"'
  | '\\' => some '\\'
  | '/' => some '/'
  | 'b' => some '\x08'
  | 'f' => some '\x0c'
  | 'n' => some '\n'
  | 'r' => some '\r'
  | 't' => some '\t'
  | _ => none

/-- An escape by a number between braces, from the first character within: the character and the
    size of the whole escape, or the size up to what makes it wrong. At most `room` more characters
    are looked at. -/
def bracedEscape (size point : Nat) : (room : Nat) → List Char → Except Nat (Char × Nat)
  | 0, _ => .error size
  | _, [] => .error size
  | room + 1, c :: rest =>
    if c = '\x7d' then
      if size < 4 || !isScalar point then .error (size + 1)
      else .ok (Char.ofNat point, size + 1)
    else
      match hexValue? c with
      | some digit => bracedEscape (size + 1) (point * 16 + digit) room rest
      | none => .error (size + 1)

/-- The number that four hexadecimal digits at the front of a text write. -/
def hex4? : List Char → Option Nat
  | a :: b :: c :: d :: _ => do
    let a ← hexValue? a
    let b ← hexValue? b
    let c ← hexValue? c
    let d ← hexValue? d
    return ((a * 16 + b) * 16 + c) * 16 + d
  | _ => none

/-- An escape by four digits, from the first of them: the character and the size of the whole
    escape. A pair of escapes for the halves of a code point counts as one. -/
def fixedEscape? (digits : List Char) : Option (Char × Nat) := do
  let unit ← hex4? digits
  if isScalar unit then return (Char.ofNat unit, 6)
  else if unit < 0xdc00 then
    match digits.drop 4 with
    | '\\' :: 'u' :: more =>
      let low ← hex4? more
      if 0xdc00 ≤ low && low ≤ 0xdfff then
        return (Char.ofNat (0x10000 + (unit - 0xd800) * 0x400 + (low - 0xdc00)), 12)
      else none
    | _ => none
  else none

/-- The escape at the front of a text, from the character after the backslash: what it stands for
    and its size with the backslash, which is two at least. -/
def readEscape : List Char → Except LexicalFault (Char × Nat)
  | 'u' :: '\x7b' :: rest =>
    match bracedEscape 3 0 9 rest with
    | .ok result => .ok result
    | .error size =>
      .error (.badUnicodeEscape (String.ofList (('\\' :: 'u' :: '\x7b' :: rest).take size)))
  | 'u' :: rest =>
    match fixedEscape? rest with
    | some result => .ok result
    | none => .error (.badUnicodeEscape (String.ofList (('\\' :: 'u' :: rest).take 6)))
  | c :: _ =>
    match escapedChar? c with
    | some char => .ok (char, 2)
    | none => .error (.badEscape (String.ofList ['\\', c]))
  | [] => .error (.badEscape "\\")

/-- The content of a string up to its closing quote. `place` counts from the opening quote,
    `content` is what was read so far, last character first. -/
def readString (place : Nat) (content : List Char) : List Char → Attempt (Sized TokenKind)
  | [] => .error (.unterminatedString, place)
  | c :: rest =>
    if c = '"' then .ok (.string (String.ofList content.reverse), place + 1)
    else if c = '\\' then
      match readEscape rest with
      | .ok (char, size) => readString (place + size) (char :: content) (rest.drop (size - 1))
      | .error fault => .error (fault, place)
    else if isLineEnd c then .error (.unterminatedString, place)
    else readString (place + 1) (c :: content) rest
termination_by text => text.length
decreasing_by
  all_goals simp only [List.length_drop, List.length_cons]
  all_goals omega

/-- The content of a block string up to its closing quotes. `place` counts from the first opening
    quote, `line` is the line so far, last character first, and `lines` those before it, last line
    first. -/
def readBlockString (place : Nat) (line : List Char) (lines : List (List Char)) :
    List Char → Attempt (Sized TokenKind)
  | [] => .error (.unterminatedString, place)
  | '"' :: '"' :: '"' :: _ =>
    .ok (.blockString (BlockString.content (line.reverse :: lines).reverse), place + 3)
  | '\\' :: '"' :: '"' :: '"' :: rest =>
    readBlockString (place + 4) ('"' :: '"' :: '"' :: line) lines rest
  | '\r' :: '\n' :: rest => readBlockString (place + 2) [] (line.reverse :: lines) rest
  | c :: rest =>
    if isLineEnd c then readBlockString (place + 1) [] (line.reverse :: lines) rest
    else readBlockString (place + 1) (c :: line) lines rest

/-! ## Numbers -/

/-- The digits at the front of a text, of which there must be one. -/
def readDigits (place : Nat) (text : List Char) : Attempt (List Char) :=
  let digits := text.takeWhile Char.isDigit
  if digits.isEmpty then .error (.expectedDigit (found text), place) else .ok digits

/-- The whole part of a number: no digit follows a leading zero. -/
def readWhole (place : Nat) : List Char → Attempt (List Char)
  | '0' :: c :: _ =>
    if c.isDigit then .error (.digitAfterZero (.char c), place + 1) else .ok ['0']
  | text => readDigits place text

/-- The fraction of a number, if a point is at the front of the text, and its size. -/
def readFraction (place : Nat) : List Char → Attempt (Sized (List Char))
  | '.' :: rest => do
    let digits ← readDigits (place + 1) rest
    return (digits, digits.length + 1)
  | _ => .ok ([], 0)

/-- The exponent of a number, if its letter is at the front of the text, and its size. -/
def readExponent (place : Nat) : List Char → Attempt (Sized (Option Decimal.ExponentPart))
  | c :: rest =>
    if c = 'e' || c = 'E' then do
      let (sign, size, digits) ← match rest with
        | '-' :: more => do pure (some true, 2, ← readDigits (place + 2) more)
        | '+' :: more => do pure (some false, 2, ← readDigits (place + 2) more)
        | _ => do pure (none, 1, ← readDigits (place + 1) rest)
      return (some ⟨c = 'E', sign, digits.filterMap Decimal.Digit.ofChar?⟩, digits.length + size)
    else .ok (none, 0)
  | [] => .ok (none, 0)

/-- The number at the front of a text. Neither a point nor a name may follow it. -/
def readNumber (text : List Char) : Attempt (Sized TokenKind) := do
  let negative := text.head? = some '-'
  let sign := if negative then 1 else 0
  let whole ← readWhole sign (text.drop sign)
  let size := sign + whole.length
  let (fraction, fractionSize) ← readFraction size (text.drop size)
  let size := size + fractionSize
  let (exponent, exponentSize) ← readExponent size (text.drop size)
  let size := size + exponentSize
  let rest := text.drop size
  if rest.head?.any fun c => c = '.' || isNameStart c then
    throw (.expectedDigit (found rest), size)
  let magnitude := Nat.ofDigitChars 10 whole 0
  if fraction.isEmpty && exponent.isNone then return (.int ⟨negative, magnitude⟩, size)
  else
    return (.float ⟨negative, magnitude, fraction.filterMap Decimal.Digit.ofChar?, exponent⟩, size)

/-! ## Tokens -/

/-- The punctuator of one character. -/
def punctuator? : Char → Option Punctuator
  | '!' => some .bang
  | '$' => some .dollar
  | '&' => some .ampersand
  | '(' => some .parenLeft
  | ')' => some .parenRight
  | ':' => some .colon
  | '=' => some .equals
  | '@' => some .at
  | '[' => some .bracketLeft
  | ']' => some .bracketRight
  | '\x7b' => some .braceLeft
  | '|' => some .pipe
  | '\x7d' => some .braceRight
  | _ => none

/-- The token that starts with the character `c`, before `rest`. -/
def readToken (c : Char) (rest : List Char) : Attempt (Sized TokenKind) :=
  if c = '"' then
    match rest with
    | '"' :: '"' :: more => readBlockString 3 [] [] more
    | _ => readString 1 [] rest
  else if isNameStart c then
    let text := c :: rest.takeWhile isNameChar
    .ok (.name (String.ofList text), text.length)
  else if c.isDigit || c = '-' then readNumber (c :: rest)
  else
    match punctuator? c with
    | some p => .ok (.punctuator p, 1)
    | none =>
      if c = '.' && rest.take 2 = ['.', '.'] then .ok (.punctuator .spread, 3)
      else if c = '\'' then .error (.singleQuote, 0)
      else .error (.unexpected (.char c), 0)

/-- The tokens of a text whose first character has `offset` characters before it. Comments are
    passed over like blanks. -/
def scanFrom (offset : Nat) : List Char → List Token
  | [] => [⟨.endOfText, offset⟩]
  | c :: rest =>
    if isIgnored c then scanFrom (offset + 1) rest
    else if c = '#' then
      let size := (rest.takeWhile (!isLineEnd ·)).length
      scanFrom (offset + 1 + size) (rest.drop size)
    else
      match readToken c rest with
      | .ok (kind, size) => ⟨kind, offset⟩ :: scanFrom (offset + size) (rest.drop (size - 1))
      | .error (fault, place) => [⟨.fault fault, offset + place⟩]
termination_by text => text.length
decreasing_by
  all_goals simp only [List.length_drop, List.length_cons]
  all_goals omega

/-- The tokens of a text. -/
def scan (text : String) : List Token :=
  scanFrom 0 text.toList

end SchemaClasses.Token
