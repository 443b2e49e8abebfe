import Mathlib.Algebra.Order.Field.Power
import Mathlib.Algebra.Order.Ring.Rat
import Mathlib.Order.Compare
import Mathlib.Tactic.Linarith
import RowGuard.Value.Basic

/-!
# Decimals as rational numbers

A decimal stands for a rational number.  The order of decimals, which is found from signs, from
the places of the leading digits and only then from the digits, is the order of the numbers they
stand for; so decimals that stand for one number are not told apart by it.
-/

namespace RowGuard

theorem powerOfTen_eq (n : Nat) : powerOfTen n = 10 ^ n := rfl

/-- A number other than zero reaches the power of ten that has as many digits. -/
theorem powerOfTen_digitCount_le {n : Nat} (hn : n ≠ 0) : powerOfTen (digitCount n - 1) ≤ n := by
  rw [digitCount]
  split
  · rw [Nat.sub_self, powerOfTen_zero]
    omega
  · have ih := powerOfTen_digitCount_le (n := n / 10) (by omega)
    have hcount : digitCount (n / 10) = digitCount (n / 10) - 1 + 1 := by
      have := digitCount_pos (n / 10)
      omega
    rw [Nat.add_sub_cancel, hcount, powerOfTen_succ]
    omega
termination_by n

namespace Decimal

/-- The number that a decimal stands for. -/
def toRat (x : Decimal) : ℚ := x.digits * 10 ^ (-x.scale)

@[simp]
theorem toRat_ofInt (n : Int) : (ofInt n).toRat = n := by
  simp [toRat, ofInt]

variable {x y : Decimal}

theorem toRat_pos_iff : 0 < x.toRat ↔ 0 < x.digits := by
  rw [toRat, mul_pos_iff_of_pos_right (zpow_pos (by norm_num) _), Int.cast_pos]

theorem toRat_nonneg_iff : 0 ≤ x.toRat ↔ 0 ≤ x.digits := by
  rw [toRat, mul_nonneg_iff_of_pos_right (zpow_pos (by norm_num) _), Int.cast_nonneg_iff]

theorem toRat_neg_iff : x.toRat < 0 ↔ x.digits < 0 := by
  rw [← not_le, toRat_nonneg_iff, not_le]

theorem abs_toRat : |x.toRat| = x.digits.natAbs * 10 ^ (-x.scale) := by
  rw [toRat, abs_mul, abs_of_pos (zpow_pos (by norm_num : (0 : ℚ) < 10) _), Nat.cast_natAbs,
    Int.cast_abs]

/-! ## Magnitudes -/

/-- What stands before the point has as many digits as the magnitude tells. -/
theorem abs_toRat_lt : |x.toRat| < 10 ^ x.magnitude := by
  have hdigits : (x.digits.natAbs : ℚ) < 10 ^ (digitCount x.digits.natAbs : ℤ) := by
    rw [zpow_natCast]
    exact_mod_cast lt_powerOfTen_digitCount x.digits.natAbs
  rw [abs_toRat, magnitude, sub_eq_add_neg, zpow_add₀ (by norm_num)]
  gcongr

theorem le_abs_toRat (hx : x.digits ≠ 0) : 10 ^ (x.magnitude - 1) ≤ |x.toRat| := by
  have hcount := digitCount_pos x.digits.natAbs
  have hdigits : (10 : ℚ) ^ ((digitCount x.digits.natAbs : ℤ) - 1) ≤ x.digits.natAbs := by
    rw [← Nat.cast_pred hcount, zpow_natCast]
    exact_mod_cast powerOfTen_digitCount_le (Int.natAbs_ne_zero.mpr hx)
  rw [abs_toRat, magnitude, sub_right_comm, sub_eq_add_neg _ x.scale, zpow_add₀ (by norm_num)]
  gcongr

theorem abs_toRat_lt_abs (hy : y.digits ≠ 0) (h : x.magnitude < y.magnitude) :
    |x.toRat| < |y.toRat| :=
  calc
    |x.toRat| < 10 ^ x.magnitude := abs_toRat_lt
    _ ≤ 10 ^ (y.magnitude - 1) := zpow_le_zpow_right₀ (by norm_num) (by omega)
    _ ≤ |y.toRat| := le_abs_toRat hy

/-! ## Order -/

/-- A decimal can be written with any scale that is not below its own. -/
theorem toRat_eq_digitsAt {scale : Int} (h : x.scale ≤ scale) :
    x.toRat = x.digitsAt scale * 10 ^ (-scale) := by
  have hpower : ((powerOfTen (scale - x.scale).toNat : Int) : ℚ) = 10 ^ (scale - x.scale) := by
    rw [powerOfTen_eq, Int.cast_natCast, Nat.cast_pow, ← zpow_natCast,
      Int.toNat_of_nonneg (by omega)]
    norm_num
  rw [toRat, digitsAt, Int.cast_mul, hpower, mul_assoc, ← zpow_add₀ (by norm_num)]
  congr 2
  omega

theorem compareDigits_compares : (x.compareDigits y).Compares x.toRat y.toRat := by
  rw [toRat_eq_digitsAt (le_max_left x.scale y.scale),
    toRat_eq_digitsAt (le_max_right x.scale y.scale), ← compare_iff, ← cmp_eq_compare,
    cmp_mul_pos_right (zpow_pos (by norm_num) _), Int.cast_strictMono.cmp_map_eq, cmp_eq_compare]
  rfl

theorem toRat_lt_of_sign_lt (h : x.digits.sign < y.digits.sign) : x.toRat < y.toRat := by
  obtain ⟨hx, hy⟩ | ⟨hx, hy⟩ :
      x.digits < 0 ∧ 0 ≤ y.digits ∨ x.digits ≤ 0 ∧ 0 < y.digits := by grind
  · exact (toRat_neg_iff.mpr hx).trans_le (toRat_nonneg_iff.mpr hy)
  · exact (not_lt.mp (mt toRat_pos_iff.mp hx.not_gt)).trans_lt (toRat_pos_iff.mpr hy)

theorem compares_of_magnitude_ne (hx : x.digits ≠ 0) (hy : y.digits ≠ 0)
    (h : x.magnitude ≠ y.magnitude) :
    (Ord.compare x.magnitude y.magnitude).Compares |x.toRat| |y.toRat| := by
  rw [← compare_iff]
  obtain hlt | hgt := lt_or_gt_of_ne h
  · rw [compare_lt_iff_lt.mpr hlt, compare_lt_iff_lt.mpr (abs_toRat_lt_abs hy hlt)]
  · rw [compare_gt_iff_gt.mpr hgt, compare_gt_iff_gt.mpr (abs_toRat_lt_abs hx hgt)]

/-- The order of two decimals is that of the numbers they stand for. -/
theorem compare_compares (x y : Decimal) : (x.compare y).Compares x.toRat y.toRat := by
  unfold compare
  by_cases hsign : x.digits.sign = y.digits.sign
  swap
  · rw [if_pos hsign, ← compare_iff]
    obtain hlt | hgt := lt_or_gt_of_ne hsign
    · rw [compare_lt_iff_lt.mpr hlt, compare_lt_iff_lt.mpr (toRat_lt_of_sign_lt hlt)]
    · rw [compare_gt_iff_gt.mpr hgt, compare_gt_iff_gt.mpr (toRat_lt_of_sign_lt hgt)]
  rw [if_neg (not_not_intro hsign)]
  split
  · rename_i hzero
    have hzero' : y.digits = 0 := by grind
    show x.toRat = y.toRat
    rw [toRat, toRat, hzero, hzero', Int.cast_zero, zero_mul, zero_mul]
  split
  · exact compareDigits_compares
  split
  · rename_i hx hmagnitude hpos
    have hpos' : 0 < y.digits := by grind
    have h := compares_of_magnitude_ne hx hpos'.ne' hmagnitude
    rwa [abs_of_pos (toRat_pos_iff.mpr hpos), abs_of_pos (toRat_pos_iff.mpr hpos')] at h
  · -- Of two negative numbers the one with fewer digits before the point is the greater one.
    rename_i hx hmagnitude hpos
    have hneg : y.digits < 0 ∧ x.digits < 0 := by grind
    have h := compares_of_magnitude_ne hneg.1.ne hx (Ne.symm hmagnitude)
    rw [abs_of_neg (toRat_neg_iff.mpr hneg.1), abs_of_neg (toRat_neg_iff.mpr hneg.2)] at h
    generalize Ord.compare y.magnitude x.magnitude = o at h ⊢
    cases o with
    | lt => exact neg_lt_neg_iff.mp h
    | eq => exact (neg_inj.mp h).symm
    | gt => exact neg_lt_neg_iff.mp h

theorem compare_eq (x y : Decimal) : x.compare y = Ord.compare x.toRat y.toRat :=
  ((compare_iff _ _).mpr (compare_compares x y)).symm

/-- Decimals are the same if they stand for one number. -/
theorem same_iff : x.same y ↔ x.toRat = y.toRat := by
  rw [same, beq_iff_eq, compare_eq, compare_eq_iff_eq]

end Decimal

end RowGuard
