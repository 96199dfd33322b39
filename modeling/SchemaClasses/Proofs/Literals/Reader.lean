import SchemaClasses.Document.Lexer

/-!
# Reading literals

The grammar of the literals of the generated code, as a reader that takes the literal at the front
of a text. It knows more forms than are ever written: all escapes, numbers without a whole part or
without a fraction, blanks, commas before a closing bracket.
-/

namespace SchemaClasses

/-- A literal of the generated code. A number is the text that it is written with. -/
inductive Literal
  | bool (b : Bool)
  | null
  | number (text : String)
  | string (content : String)
  | list (items : List Literal)
  | dict (entries : List (Literal × Literal))
deriving Repr, Inhabited

namespace Literal

/-- What was read from the front of a text, and the text after it. -/
abbrev Reading (α : Type) := Option (α × List Char)

/-! ## Strings -/

/-- The number that this many hexadecimal digits at the front of a text write. -/
def hexNumber? (count : Nat) (text : List Char) : Option Nat :=
  if text.length < count then none
  else (text.take count).foldlM (fun n c => (Token.hexValue? c).map (16 * n + ·)) 0

/-- An escape of one letter and this many hexadecimal digits, from the first digit: what it stands
    for and the size of letter and digits. -/
def hexEscape? (count : Nat) (digits : List Char) : Option (List Char × Nat) :=
  match hexNumber? count digits with
  | some point => if Token.isScalar point then some ([Char.ofNat point], count + 1) else none
  | none => none

/-- The character that one character after a backslash stands for. -/
def escapedChar? : Char → Option Char
  | '\\' => some '\\'
  | '\'' => some '\''
  | '"' => some '"'
  | 'a' => some '\x07'
  | 'b' => some '\x08'
  | 'f' => some '\x0c'
  | 'n' => some '\n'
  | 'r' => some '\r'
  | 't' => some '\t'
  | 'v' => some '\x0b'
  | _ => none

def isOctalDigit (c : Char) : Bool :=
  '0' ≤ c && c ≤ '7'

/-- The escape at the front of a text, from the character after the backslash: what it stands for
    and its size without the backslash. A line end stands for nothing, and a character that no
    escape starts with stands for itself after the backslash. Escapes by name are not read. -/
def readEscape : List Char → Option (List Char × Nat)
  | [] => none
  | c :: rest =>
    if c = '\x00' || c = 'N' then none
    else if c = '\n' then some ([], 1)
    else if c = '\r' then some ([], if rest.head? = some '\n' then 2 else 1)
    else if c = 'x' then hexEscape? 2 rest
    else if c = 'u' then hexEscape? 4 rest
    else if c = 'U' then hexEscape? 8 rest
    else if isOctalDigit c then
      let digits := ((c :: rest).take 3).takeWhile isOctalDigit
      some ([Char.ofNat (Nat.ofDigitChars 8 digits 0)], digits.length)
    else
      match escapedChar? c with
      | some char => some ([char], 1)
      | none => some (['\\', c], 1)

/-- The content of a string up to its closing quote. -/
def readString : List Char → Reading (List Char)
  | [] => none
  | c :: rest =>
    if c = '"' then some ([], rest)
    else if c = '\\' then
      match readEscape rest with
      | some (chars, size) =>
        (readString (rest.drop size)).map fun (content, rest) => (chars ++ content, rest)
      | none => none
    else if Token.isLineEnd c || c = '\x00' then none
    else (readString rest).map fun (content, rest) => (c :: content, rest)
termination_by text => text.length
decreasing_by
  all_goals simp only [List.length_drop, List.length_cons]
  all_goals omega

/-- The string after its opening quote. Two more quotes would open a string of several lines. -/
def readQuoted (rest : List Char) : Reading Literal :=
  if rest.take 2 = ['"', '"'] then none
  else (readString rest).map fun (content, rest) => (.string (String.ofList content), rest)

/-! ## Numbers and words -/

def minus (text : List Char) : List Char :=
  if text.head? = some '-' then ['-'] else []

def digits (text : List Char) : List Char :=
  text.takeWhile Char.isDigit

/-- The point at the front of a text and the digits after it. -/
def fraction : List Char → List Char
  | [] => []
  | c :: rest => if c = '.' then c :: digits rest else []

def exponentSign (text : List Char) : List Char :=
  if text.head? = some '-' then ['-'] else if text.head? = some '+' then ['+'] else []

/-- The exponent at the front of a text, which may lack its digits. -/
def exponent : List Char → List Char
  | [] => []
  | c :: rest =>
    if c = 'e' || c = 'E' then
      let sign := exponentSign rest
      c :: (sign ++ digits (rest.drop sign.length))
    else []

/-- The parts of a number at the front of a text, and the text after it. -/
structure NumberParts where
  sign : List Char
  whole : List Char
  fraction : List Char
  exponent : List Char
  rest : List Char

/-- The text as the parts of a number at its front, some of which may be missing. -/
def numberParts (text : List Char) : NumberParts :=
  let sign := minus text
  let afterSign := text.drop sign.length
  let whole := digits afterSign
  let afterWhole := afterSign.drop whole.length
  let fraction := fraction afterWhole
  let afterFraction := afterWhole.drop fraction.length
  let exponent := exponent afterFraction
  ⟨sign, whole, fraction, exponent, afterFraction.drop exponent.length⟩

/-- Whether the parts make up a number. There are digits before or after the point and in an
    exponent, and an integer has no superfluous zeros in front, unless all its digits are zeros.
    Neither a point nor a word may follow. -/
def NumberParts.isNumber (parts : NumberParts) : Bool :=
  (!parts.whole.isEmpty || 1 < parts.fraction.length)
    && parts.exponent.getLast?.all Char.isDigit
    && (!parts.fraction.isEmpty || !parts.exponent.isEmpty || parts.whole.head? != some '0'
      || parts.whole.all (· == '0'))
    && parts.rest.head?.all fun c => c != '.' && !Token.isNameChar c

/-- The number at the front of a text. -/
def readNumber (text : List Char) : Reading Literal :=
  let parts := numberParts text
  if parts.isNumber then
    some (.number (String.ofList (parts.sign ++ parts.whole ++ parts.fraction ++ parts.exponent)),
      parts.rest)
  else none

/-- The literals that are words. -/
def ofWord? (word : List Char) : Option Literal :=
  if word = "True".toList then some (.bool true)
  else if word = "False".toList then some (.bool false)
  else if word = "None".toList then some .null
  else none

/-- The word at the front of a text, if it is a literal. -/
def readWord (text : List Char) : Reading Literal :=
  let word := text.takeWhile Token.isNameChar
  (ofWord? word).map fun literal => (literal, text.drop word.length)

/-! ## Displays -/

def isBlank (c : Char) : Bool :=
  c = ' ' || c = '\t' || c = '\x0c' || c = '\n' || c = '\r'

def skipBlanks (text : List Char) : List Char :=
  text.dropWhile isBlank

/-- What stands between brackets, after the opening one: parts with commas between them, and maybe
    one after the last. -/
def readSequence {α : Type} (close : Char) (readOne : List Char → Reading α) :
    (room : Nat) → List Char → Reading (List α)
  | 0, _ => none
  | room + 1, text =>
    let start := skipBlanks text
    if start.head? = some close then some ([], start.tail)
    else
      match readOne start with
      | none => none
      | some (item, rest) =>
        let rest := skipBlanks rest
        if rest.head? = some close then some ([item], rest.tail)
        else if rest.head? = some ',' then
          (readSequence close readOne room rest.tail).map fun (items, rest) => (item :: items, rest)
        else none

/-- A key and a value with a colon between them. -/
def readEntry (readOne : List Char → Reading Literal) (text : List Char) :
    Reading (Literal × Literal) :=
  match readOne text with
  | none => none
  | some (key, rest) =>
    let rest := skipBlanks rest
    if rest.head? = some ':' then
      (readOne (skipBlanks rest.tail)).map fun (value, rest) => ((key, value), rest)
    else none

/-- The literal at the front of a text. Displays may be nested less than `depth` times. -/
def readValue : (depth : Nat) → List Char → Reading Literal
  | 0, _ => none
  | _ + 1, [] => none
  | depth + 1, c :: rest =>
    if c = '[' then
      (readSequence ']' (readValue depth) (rest.length + 1) rest).map fun (items, rest) =>
        (.list items, rest)
    else if c = '\x7b' then
      (readSequence '\x7d' (readEntry (readValue depth)) (rest.length + 1) rest).map
        fun (entries, rest) => (.dict entries, rest)
    else if c = '"' then readQuoted rest
    else if c.isDigit || c = '-' || c = '.' then readNumber (c :: rest)
    else readWord (c :: rest)

/-- The literal that a text consists of. -/
def read (text : String) : Option Literal :=
  match readValue text.toList.length text.toList with
  | some (literal, []) => some literal
  | _ => none

end Literal

end SchemaClasses
