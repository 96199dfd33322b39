import SchemaClasses.Decimal.Binary64

/-!
# Shortest decimals

The decimal number with the fewest digits that reads back as a given double. On each decimal grid,
from one digit to seventeen, only the two neighbours of the double are tried.
-/

namespace SchemaClasses.Decimal

/-- How many digits `significand * 2 ^ shift` smallest doubles have before the decimal point; zero
    or less counts the zeros after the point. -/
def pointPlace (significand shift : Nat) : Int :=
  (digitCount (significand * pow2 shift * pow10 400 / pow2 1074) : Int) - 400

/-- The exact decimal number that a finite double is. -/
def exactDecimal (negative : Bool) (significand shift : Nat) : Scientific :=
  if 1074 ≤ shift then ⟨negative, significand * pow2 (shift - 1074), 0⟩
  else ⟨negative, significand * Nat.pow 5 (1074 - shift), (shift : Int) - 1074⟩

/-- The neighbours of a double on the grid of multiples of `10 ^ exponent`, the nearer one first;
    of two equally near ones the one with the even last digit. -/
def gridNeighbours (negative : Bool) (significand shift : Nat) (exponent : Int) : List Scientific :=
  let numerator := significand * pow2 shift * pow10 (-exponent).toNat
  let denominator := pow2 1074 * pow10 exponent.toNat
  let below := numerator / denominator
  let twice := 2 * (numerator % denominator)
  let low : Scientific := ⟨negative, below, exponent⟩
  let high : Scientific := ⟨negative, below + 1, exponent⟩
  if twice < denominator || (twice == denominator && below % 2 == 0) then [low, high]
  else [high, low]

/-- The same number without a zero at the end of its digits. A neighbour ends in a zero only where
    the first grid carries over into a second digit, so dropping one is enough. -/
def dropEndZero (d : Scientific) : Scientific :=
  if d.digits % 10 = 0 then ⟨d.negative, d.digits / 10, d.exponent + 1⟩ else d

/-- The first grid, from `count` digits on, with a neighbour that reads back as `x`. -/
def searchGrids (x : Binary64) (negative : Bool) (significand shift : Nat) (place : Int) :
    (grids count : Nat) → Scientific
  | 0, _ => exactDecimal negative significand shift
  | grids + 1, count =>
    match (gridNeighbours negative significand shift (place - count)).find?
        (·.toBinary64 = x) with
    | some hit => dropEndZero hit
    | none => searchGrids x negative significand shift place grids (count + 1)

/-- The decimal number with the fewest digits that reads back as a finite double. -/
def shortest (negative : Bool) (significand shift : Nat) : Scientific :=
  if significand = 0 then ⟨negative, 0, 0⟩
  else
    searchGrids (.finite negative significand shift) negative significand shift
      (pointPlace significand shift) 17 1

end SchemaClasses.Decimal
