import SchemaClasses.Decimal.Shortest

/-!
# Numerals

Numbers as they are written. A numeral keeps everything that its text shows, so writing it gives
the text back; `toBinary64` is the double that it denotes.
-/

namespace SchemaClasses.Decimal

/-! ## Digits -/

/-- A decimal digit. -/
abbrev Digit := Fin 10

def Digit.char (d : Digit) : Char :=
  Nat.digitChar d.val

def Digit.ofChar? (c : Char) : Option Digit :=
  if h : c.toNat - '0'.toNat < 10 ∧ '0'.toNat ≤ c.toNat then some ⟨c.toNat - '0'.toNat, h.1⟩
  else none

/-- The number that a row of digits stands for. -/
def digitsValue (digits : List Digit) : Nat :=
  digits.foldl (fun n d => 10 * n + d.val) 0

def digitsOf (n : Nat) : List Digit :=
  (Nat.toDigits 10 n).filterMap Digit.ofChar?

/-! ## Integers -/

/-- The most digits that an integer may have to be read as one. -/
def maxDigits : Nat := 4300

/-- The least number that has more digits than that. -/
def digitBound : Nat := pow10 maxDigits

/-- An integer as written: a sign and a magnitude. Zero may have a sign. -/
structure IntNumeral where
  negative : Bool
  magnitude : Nat
deriving DecidableEq, Repr

def IntNumeral.chars (n : IntNumeral) : List Char :=
  (if n.negative then ['-'] else []) ++ Nat.toDigits 10 n.magnitude

def IntNumeral.text (n : IntNumeral) : String :=
  String.ofList n.chars

def IntNumeral.toInt (n : IntNumeral) : Int :=
  if n.negative then -(n.magnitude : Int) else n.magnitude

/-- Whether the numeral has few enough digits to be read as an integer. -/
def IntNumeral.isReadable (n : IntNumeral) : Bool :=
  n.magnitude < digitBound

/-- The numeral of an integer; zero has no sign. -/
def IntNumeral.ofInt (i : Int) : IntNumeral :=
  ⟨decide (i < 0), i.natAbs⟩

/-- The integer that a text writes without superfluous zeros, if it does so. -/
def IntNumeral.ofChars? (text : List Char) : Option IntNumeral :=
  let (negative, digits) :=
    match text with
    | '-' :: rest => (true, rest)
    | _ => (false, text)
  let numeral : IntNumeral := ⟨negative, Nat.ofDigitChars 10 digits 0⟩
  if !digits.isEmpty && digits.all Char.isDigit && numeral.chars == text then some numeral
  else none

def IntNumeral.toBinary64 (n : IntNumeral) : Binary64 :=
  Scientific.toBinary64 ⟨n.negative, n.magnitude, 0⟩

/-! ## Numbers with a fraction or an exponent -/

/-- The exponent of a number as written: the letter, the sign if there is one, the digits. -/
structure ExponentPart where
  capital : Bool
  /-- The sign, if one is written: whether it is a minus. -/
  sign : Option Bool
  digits : List Digit
deriving DecidableEq, Repr

def ExponentPart.chars (e : ExponentPart) : List Char :=
  let letter := if e.capital then 'E' else 'e'
  let sign := match e.sign with
    | none => []
    | some true => ['-']
    | some false => ['+']
  letter :: (sign ++ e.digits.map Digit.char)

/-- The power of ten that an exponent denotes. -/
def ExponentPart.toInt (e : ExponentPart) : Int :=
  if e.sign = some true then -(digitsValue e.digits : Int) else digitsValue e.digits

/-- A number with a fraction or an exponent as written. -/
structure FloatNumeral where
  negative : Bool
  whole : Nat
  /-- The digits after the point; no point is written if there are none. -/
  fraction : List Digit
  exponent : Option ExponentPart
deriving DecidableEq, Repr

def FloatNumeral.chars (n : FloatNumeral) : List Char :=
  (if n.negative then ['-'] else []) ++ Nat.toDigits 10 n.whole
    ++ (if n.fraction.isEmpty then [] else '.' :: n.fraction.map Digit.char)
    ++ (n.exponent.map ExponentPart.chars).getD []

def FloatNumeral.text (n : FloatNumeral) : String :=
  String.ofList n.chars

/-- The decimal number that the numeral denotes. -/
def FloatNumeral.toScientific (n : FloatNumeral) : Scientific where
  negative := n.negative
  digits := n.whole * pow10 n.fraction.length + digitsValue n.fraction
  exponent := (n.exponent.map ExponentPart.toInt).getD 0 - n.fraction.length

def FloatNumeral.toBinary64 (n : FloatNumeral) : Binary64 :=
  n.toScientific.toBinary64

/-! ## Numerals of doubles -/

/-- A number as written, with or without a fraction or an exponent. -/
inductive Numeral
  | int (n : IntNumeral)
  | float (n : FloatNumeral)
deriving DecidableEq, Repr

def Numeral.text : Numeral → String
  | .int n => n.text
  | .float n => n.text

/-- An exponent with its sign and at least two digits. -/
def ExponentPart.ofInt (e : Int) : ExponentPart :=
  let digits := digitsOf e.natAbs
  ⟨false, some (decide (e < 0)), if digits.length < 2 then 0 :: digits else digits⟩

/-- The numeral of a decimal number. It is positional when the first digit stands for a power of
    ten from `10 ^ (-4)` to `10 ^ 15`, and has an exponent otherwise. -/
def Scientific.toNumeral (d : Scientific) : Numeral :=
  let digits := digitsOf d.digits
  let place : Int := digits.length + d.exponent
  if d.digits = 0 then .int ⟨d.negative, 0⟩
  else if -4 < place && place ≤ 16 then
    if 0 ≤ d.exponent then .int ⟨d.negative, d.digits * pow10 d.exponent.toNat⟩
    else if 0 < place then
      .float ⟨d.negative, digitsValue (digits.take place.toNat), digits.drop place.toNat, none⟩
    else
      .float ⟨d.negative, 0, List.replicate (-place).toNat 0 ++ digits, none⟩
  else
    .float ⟨d.negative, digitsValue (digits.take 1), digits.drop 1,
      some (ExponentPart.ofInt (place - 1))⟩

/-- The numeral with the fewest digits that reads back as a finite double. -/
def Binary64.toNumeral? : Binary64 → Option Numeral
  | .finite negative significand shift => some (shortest negative significand shift).toNumeral
  | _ => none

/-- The text of a double; a whole number shows one zero after the point. `names` are the texts of
    infinity and of no number. -/
def Binary64.textWith (names : String × String) : Binary64 → String
  | .finite negative significand shift =>
    match (shortest negative significand shift).toNumeral with
    | .int n => n.text ++ ".0"
    | .float n => n.text
  | .infinity negative => (if negative then "-" else "") ++ names.1
  | .nan => names.2

end SchemaClasses.Decimal
