/-!
# Decimals

A decimal is a whole number of digits with the place of its point; its value
is `digits · 10 ^ (-scale)`.  Decimals of different scale can have the same
value, and every comparison is one of values.  The order is found without
writing out zeros: signs first, then the places of the leading digits, and only
between numbers of the same size the digits themselves.
-/

namespace RowGuard

/-- The number of decimal digits of a natural number; zero has one. -/
def digitCount (n : Nat) : Nat :=
  if n < 10 then 1 else digitCount (n / 10) + 1
termination_by n
decreasing_by omega

theorem digitCount_pos (n : Nat) : 0 < digitCount n := by
  rw [digitCount]; split <;> omega

/-- The number that is written as a one and `n` zeros. -/
def powerOfTen (n : Nat) : Nat := Nat.pow 10 n

theorem powerOfTen_zero : powerOfTen 0 = 1 := rfl

theorem powerOfTen_succ (n : Nat) : powerOfTen (n + 1) = powerOfTen n * 10 := rfl

theorem powerOfTen_pos (n : Nat) : 0 < powerOfTen n := by
  induction n with
  | zero => exact Nat.one_pos
  | succ n ih => rw [powerOfTen_succ]; omega

/-- A number is below the power of ten that has one digit more. -/
theorem lt_powerOfTen_digitCount (n : Nat) : n < powerOfTen (digitCount n) := by
  rw [digitCount]
  split
  · rw [powerOfTen_succ, powerOfTen_zero]
    omega
  · have ih := lt_powerOfTen_digitCount (n / 10)
    rw [powerOfTen_succ]
    omega
termination_by n

/-- The least number above the integers of 64 bits. -/
def integerLimit : Int := 9223372036854775808

/-- Whether a number is an integer of 64 bits. -/
def fitsInteger (n : Int) : Bool := -integerLimit ≤ n && n < integerLimit

structure Decimal where
  digits : Int
  scale : Int

namespace Decimal

def ofInt (n : Int) : Decimal := ⟨n, 0⟩

def zero : Decimal := ofInt 0

instance : Inhabited Decimal := ⟨zero⟩

def isZero (x : Decimal) : Bool := x.digits == 0

def neg (x : Decimal) : Decimal := ⟨-x.digits, x.scale⟩

def abs (x : Decimal) : Decimal := ⟨x.digits.natAbs, x.scale⟩

/-- The digits of `x` at a scale that is not below its own. -/
def digitsAt (x : Decimal) (scale : Int) : Int :=
  x.digits * powerOfTen (scale - x.scale).toNat

/-- The number of digits before the point, negative where zeros follow it. -/
def magnitude (x : Decimal) : Int := digitCount x.digits.natAbs - x.scale

/-- Compares the digits of two decimals at their greater scale. -/
def compareDigits (x y : Decimal) : Ordering :=
  let scale := max x.scale y.scale
  Ord.compare (x.digitsAt scale) (y.digitsAt scale)

/-- Compares two decimals by value. -/
def compare (x y : Decimal) : Ordering :=
  if x.digits.sign ≠ y.digits.sign then Ord.compare x.digits.sign y.digits.sign
  else if x.digits = 0 then .eq
  else if x.magnitude = y.magnitude then compareDigits x y
  else if 0 < x.digits then Ord.compare x.magnitude y.magnitude
  else Ord.compare y.magnitude x.magnitude

def same (x y : Decimal) : Bool := x.compare y == .eq

/-- The whole part, if it fits into `Int64`.  A number below one has none, and
one with more than nineteen digits before the point is out of range. -/
def toInt64? (x : Decimal) : Option Int64 :=
  if x.digits = 0 ∨ x.magnitude ≤ 0 then some 0
  else if 19 < x.magnitude then none
  else
    let whole :=
      if 0 < x.scale then Int.tdiv x.digits (powerOfTen x.scale.toNat)
      else x.digits * powerOfTen (-x.scale).toNat
    if fitsInteger whole then some (Int64.ofInt whole) else none

end Decimal

end RowGuard
