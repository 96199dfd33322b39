/-!
# UTF-8

Reading bytes as text. Every byte sequence is either the encoding of a text or has a first place
where it stops being one.
-/

namespace SchemaClasses.Text

/-! ## What can be wrong -/

/-- Why bytes are not the encoding of a text. -/
inductive Utf8Fault
  /-- A byte that starts no character. -/
  | invalidStart
  /-- A character is started, and a byte that does not continue it follows. -/
  | invalidContinuation
  /-- The bytes end within a character. -/
  | unexpectedEnd
deriving DecidableEq, Repr

def Utf8Fault.message : Utf8Fault → String
  | .invalidStart => "invalid start byte"
  | .invalidContinuation => "invalid continuation byte"
  | .unexpectedEnd => "unexpected end of data"

/-- The first fault in a byte sequence: where it starts, how many bytes it takes, and the first of
    them. -/
structure Utf8Error where
  fault : Utf8Fault
  position : Nat
  size : Nat
  byte : UInt8
deriving DecidableEq, Repr

def hexByte (byte : UInt8) : String :=
  let digit (n : Nat) : Char := if n < 10 then Char.ofNat (48 + n) else Char.ofNat (87 + n)
  String.ofList [digit (byte.toNat / 16), digit (byte.toNat % 16)]

def Utf8Error.message (e : Utf8Error) : String :=
  if e.size = 1 then
    s!"'utf-8' codec can't decode byte 0x{hexByte e.byte} in position {e.position}: " ++
      e.fault.message
  else
    s!"'utf-8' codec can't decode bytes in position {e.position}-{e.position + e.size - 1}: " ++
      e.fault.message

/-! ## Decoding -/

/-- Whether a byte continues a character. -/
def isContinuation (b : UInt8) : Bool :=
  0x80 ≤ b && b < 0xc0

/-- The six bits that a continuing byte adds. -/
def continuationBits (b : UInt8) : Nat :=
  b.toNat % 64

/-- Whether `second` may follow `first` at the front of a character: it continues one, and the
    character is not overlong, no surrogate, and not beyond the last code point. -/
def isSecond (first second : UInt8) : Bool :=
  isContinuation second &&
    (if first = 0xe0 then 0xa0 ≤ second
     else if first = 0xed then second < 0xa0
     else if first = 0xf0 then 0x90 ≤ second
     else if first = 0xf4 then second < 0x90
     else true)

def char2 (a b : UInt8) : Char :=
  Char.ofNat ((a.toNat - 0xc0) * 64 + continuationBits b)

def char3 (a b c : UInt8) : Char :=
  Char.ofNat (((a.toNat - 0xe0) * 64 + continuationBits b) * 64 + continuationBits c)

def char4 (a b c d : UInt8) : Char :=
  Char.ofNat ((((a.toNat - 0xf0) * 64 + continuationBits b) * 64 + continuationBits c) * 64
    + continuationBits d)

/-- The text that the bytes encode; the first of them is at `position`. -/
def decodeUtf8From (position : Nat) : List UInt8 → Except Utf8Error (List Char)
  | [] => .ok []
  | a :: rest =>
    let fault (kind : Utf8Fault) (size : Nat) : Except Utf8Error (List Char) :=
      .error { fault := kind, position, size, byte := a }
    if a < 0x80 then (Char.ofNat a.toNat :: ·) <$> decodeUtf8From (position + 1) rest
    else if a < 0xc2 then fault .invalidStart 1
    else if a < 0xe0 then
      match rest with
      | [] => fault .unexpectedEnd 1
      | b :: rest =>
        if isSecond a b then (char2 a b :: ·) <$> decodeUtf8From (position + 2) rest
        else fault .invalidContinuation 1
    else if a < 0xf0 then
      match rest with
      | [] => fault .unexpectedEnd 1
      | [b] => if isSecond a b then fault .unexpectedEnd 2 else fault .invalidContinuation 1
      | b :: c :: rest =>
        if !isSecond a b then fault .invalidContinuation 1
        else if !isContinuation c then fault .invalidContinuation 2
        else (char3 a b c :: ·) <$> decodeUtf8From (position + 3) rest
    else if a < 0xf5 then
      match rest with
      | [] => fault .unexpectedEnd 1
      | [b] => if isSecond a b then fault .unexpectedEnd 2 else fault .invalidContinuation 1
      | [b, c] =>
        if !isSecond a b then fault .invalidContinuation 1
        else if !isContinuation c then fault .invalidContinuation 2
        else fault .unexpectedEnd 3
      | b :: c :: d :: rest =>
        if !isSecond a b then fault .invalidContinuation 1
        else if !isContinuation c then fault .invalidContinuation 2
        else if !isContinuation d then fault .invalidContinuation 3
        else (char4 a b c d :: ·) <$> decodeUtf8From (position + 4) rest
    else fault .invalidStart 1

/-- The text that the bytes encode. -/
def decodeUtf8 (bytes : List UInt8) : Except Utf8Error (List Char) :=
  decodeUtf8From 0 bytes

/-- The bytes that encode a text. -/
def encodeUtf8 (text : String) : List UInt8 :=
  text.toUTF8.toList

end SchemaClasses.Text
