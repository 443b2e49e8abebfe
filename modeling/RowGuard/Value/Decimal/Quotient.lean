/-!
# Quotients of whole numbers

A quotient that is not whole is rounded to the nearest whole number.  What
happens to a half is the caller's choice: it goes up, or to the even neighbour.
-/

namespace RowGuard

/-- The quotient rounded to the nearest whole number, a half upwards. -/
def divideHalfUp (n d : Nat) : Nat := (2 * n + d) / (2 * d)

/-- The quotient rounded to the nearest whole number, a half to the even one. -/
def divideHalfEven (n d : Nat) : Nat :=
  let whole := n / d
  let twice := 2 * (n % d)
  if twice < d ∨ twice = d ∧ whole % 2 = 0 then whole else whole + 1

theorem divideHalfUp_mul (n d : Nat) (h : 0 < d) : divideHalfUp (n * d) d = n := by
  rw [divideHalfUp, Nat.div_eq_of_lt_le]
  · rw [Nat.mul_left_comm]; omega
  · rw [Nat.add_mul, Nat.mul_left_comm]; omega

theorem divideHalfEven_mul (n d : Nat) (h : 0 < d) : divideHalfEven (n * d) d = n := by
  simp [divideHalfEven, Nat.mul_div_cancel n h, h]

end RowGuard
