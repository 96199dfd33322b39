/-!
# Doubles

Numbers of double precision as exact multiples of the smallest positive one, and the double nearest
to a decimal number. All arithmetic is on natural numbers.
-/

namespace SchemaClasses.Decimal

/-! ## Decimal numbers -/

/-- A power of two. -/
def pow2 (n : Nat) : Nat :=
  Nat.pow 2 n

/-- A power of ten. -/
def pow10 (n : Nat) : Nat :=
  Nat.pow 10 n

/-- The number `digits * 10 ^ exponent`, or its negative. -/
structure Scientific where
  negative : Bool
  digits : Nat
  exponent : Int
deriving DecidableEq, Repr

/-- How many decimal digits a number takes; zero takes one. -/
def digitCount (n : Nat) : Nat :=
  (Nat.toDigits 10 n).length

/-! ## Doubles -/

/-- A double. The finite ones are `significand * 2 ^ shift` times the smallest positive double,
    which is `2 ^ (-1074)`. -/
inductive Binary64
  | finite (negative : Bool) (significand shift : Nat)
  | infinity (negative : Bool)
  | nan
deriving DecidableEq, Repr

/-- The greatest shift of a finite double. -/
def maxShift : Nat := 2045

/-- The quotient rounded to the nearest number, a half to the even one. -/
def roundHalfEven (numerator denominator : Nat) : Nat :=
  let quotient := numerator / denominator
  let twice := 2 * (numerator % denominator)
  if twice > denominator || (twice == denominator && quotient % 2 == 1) then quotient + 1
  else quotient

/-- The double nearest to `numerator / denominator` times the smallest positive double; of two
    equally near ones the one with the even significand. -/
def Binary64.round (negative : Bool) (numerator denominator : Nat) : Binary64 :=
  let shift := (numerator / denominator).log2 + 1 - 53
  let significand := roundHalfEven numerator (denominator * pow2 shift)
  let (significand, shift) :=
    if significand = pow2 53 then (pow2 52, shift + 1) else (significand, shift)
  if shift > maxShift then .infinity negative else .finite negative significand shift

/-- The double nearest to a decimal number. Beyond the greatest double it is infinite. The first
    two cases settle numbers far outside the range without computing their power of ten. -/
def Scientific.toBinary64 (d : Scientific) : Binary64 :=
  let places := (digitCount d.digits : Int) + d.exponent
  if d.digits = 0 || places < -330 then .finite d.negative 0 0
  else if places > 310 then .infinity d.negative
  else if 0 ≤ d.exponent then
    .round d.negative (d.digits * pow10 d.exponent.toNat * pow2 1074) 1
  else
    .round d.negative (d.digits * pow2 1074) (pow10 (-d.exponent).toNat)

end SchemaClasses.Decimal
