import SchemaClasses.Text.Display

/-!
# Encoding

Writing texts as bytes. A text has an encoding unless half of a surrogate pair stands alone in it.
-/

namespace SchemaClasses.Text

/-- The first halves of a text that stand next to each other: the first of them, how many code
    points are before it, and how many halves there are. -/
structure EncodeError where
  half : Fin 0x800
  position : Nat
  count : Nat
deriving DecidableEq, Repr

def EncodeError.message (e : EncodeError) : String :=
  let place :=
    if e.count = 1 then
      s!"character '{String.ofList (escapeNumber (CodePoint.halfNumber e.half))}' in position "
        ++ toString e.position
    else s!"characters in position {e.position}-{e.position + e.count - 1}"
  s!"'utf-8' codec can't encode {place}: surrogates not allowed"

/-- The bytes that encode code points; the first of them is at `position`. -/
def encodeFrom (position : Nat) : List CodePoint → Except EncodeError (List UInt8)
  | [] => .ok []
  | .char c :: rest => (String.utf8EncodeChar c ++ ·) <$> encodeFrom (position + 1) rest
  | .half half :: rest =>
    .error ⟨half, position, (rest.takeWhile (·.char?.isNone)).length + 1⟩

/-- The bytes that encode a text. -/
def encode (text : Text) : Except EncodeError (List UInt8) :=
  encodeFrom 0 text.points

end SchemaClasses.Text
