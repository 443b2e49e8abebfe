import RowGuard.Value.Decimal.Basic
import RowGuard.Value.Decimal.Quotient

/-!
# Arithmetic to a hundred digits

Sums, products and remainders are formed exactly and then written with exactly
as many significant digits as the precision says: missing ones are zeros,
surplus ones are rounded away, a half going away from zero.

Quotients and roots need not end.  A quotient is rounded twice: to a whole
number of its last computed place, which for a long quotient lies behind the
precision, and then to the precision.  A root is cut off some places behind the
precision, and the digits that are left are rounded with halves going to the
even neighbour.
-/

namespace RowGuard.Decimal

/-- Significant digits of a computed decimal. -/
def precision : Nat := 100

/-- The greatest number whose square is not above `n`. -/
def squareRoot (n : Nat) : Nat :=
  if n = 0 then 0
  else
    let r := 2 * squareRoot (n / 4)
    if (r + 1) * (r + 1) ≤ n then r + 1 else r
termination_by n
decreasing_by omega

/-- A sign given back to a number that was computed without it. -/
def withSign (negative : Bool) (digits : Nat) (scale : Int) : Decimal :=
  ⟨if negative then -(digits : Int) else digits, scale⟩

/-- The decimal with `precision` significant digits, surplus ones being divided
away; zero stays zero. -/
def roundBy (divide : Nat → Nat → Nat) (x : Decimal) : Decimal :=
  let n := x.digits.natAbs
  let count := digitCount n
  let scale := x.scale + precision - count
  if n = 0 then zero
  else if count ≤ precision then
    withSign (x.digits < 0) (n * powerOfTen (precision - count)) scale
  else
    withSign (x.digits < 0) (divide n (powerOfTen (count - precision))) scale

/-- The decimal with `precision` significant digits, a half going away from zero. -/
def round (x : Decimal) : Decimal := roundBy divideHalfUp x

/-- The decimal with `precision` significant digits, a half going to the even
neighbour. -/
def roundEven (x : Decimal) : Decimal := roundBy divideHalfEven x

def add (x y : Decimal) : Decimal :=
  let scale := max x.scale y.scale
  round ⟨x.digitsAt scale + y.digitsAt scale, scale⟩

def sub (x y : Decimal) : Decimal := add x y.neg

def mul (x y : Decimal) : Decimal :=
  round ⟨x.digits * y.digits, x.scale + y.scale⟩

/-- The remainder of the division that rounds towards zero; it has the sign of
the dividend. -/
def rem (x y : Decimal) : Decimal :=
  let scale := max x.scale y.scale
  round ⟨Int.tmod (x.digitsAt scale) (y.digitsAt scale), scale⟩

/-- How many places the point of `n / d` has to move for the quotient to have at
least `precision` digits before it. -/
def quotientShift (n d : Nat) : Nat :=
  let a := digitCount n
  let b := digitCount d
  let whole : Int :=
    if n * powerOfTen (b - a) < d * powerOfTen (a - b) then (a : Int) - b
    else (a : Int) - b + 1
  (precision - whole).toNat

/-- The most zeros that a one may have behind its point for its digits to fit into
a word of 128 bits. -/
def unitPlaces : Int := 38

/-- Whether a divisor is a one whose digits fit into a word. -/
def isUnit (x : Decimal) : Bool := x.scale ≤ unitPlaces && x.same (ofInt 1)

/-- The quotient of two decimals, the divisor not zero.  A divisor that is a one
leaves the digits as they are; a one with more zeros divides like any number. -/
def div (x y : Decimal) : Decimal :=
  let n := x.digits.natAbs
  let d := y.digits.natAbs
  if n = 0 ∨ d = 0 then zero
  else if y.isUnit then round x
  else
    let shift := quotientShift n d
    let digits := divideHalfUp (n * powerOfTen shift) d
    round (withSign (xor (x.digits < 0) (y.digits < 0)) digits (x.scale - y.scale + shift))

/-- Digits of a root behind the precision, by which its last digit is chosen. -/
def guardDigits : Nat := 5

/-- How many zeros are put behind the digits of a number before its root is
taken: enough for the root to have all digits, and so many that half of the
scale is whole. -/
def rootShift (count : Nat) (scale : Int) : Nat :=
  let shift := 2 * (precision + guardDigits) - count
  if (scale + shift) % 2 = 0 then shift else shift + 1

/-- The square root, if there is one. -/
def sqrt? (x : Decimal) : Option Decimal :=
  if x.digits < 0 then none
  else if x.digits = 0 then some zero
  else
    let n := x.digits.natAbs
    let shift := rootShift (digitCount n) x.scale
    let root := squareRoot (n * powerOfTen shift)
    some (round (roundEven ⟨root, (x.scale + shift) / 2⟩))

end RowGuard.Decimal
