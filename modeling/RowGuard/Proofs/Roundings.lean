import Mathlib.Algebra.Order.Floor.Semifield
import Mathlib.Algebra.Order.Round
import Mathlib.Analysis.Real.Sqrt
import Mathlib.Data.Int.Log
import Mathlib.Data.Rat.Floor
import Mathlib.Data.Sign.Basic
import RowGuard.Proofs.Decimals
import RowGuard.Value.Decimal.Rounding

/-!
# Rounding to a hundred digits

The operations on decimals find digits, and then round them to a hundred.  Which place is the last
one that is kept depends on the number and not on the zeros behind its digits, so rounding is an
operation on numbers, and a sum, a difference, a product or a remainder of decimals is that of
their numbers, rounded once.  There is only one remainder, since it is less than the divisor and
has the sign of the dividend.  A quotient is rounded once if the dividend has no surplus digits; a
root is found from digits that are put in the same place whatever zeros the decimal ends with.
-/

namespace RowGuard

open Decimal (precision)

section Rounded

variable {K : Type*} [Field K] [LinearOrder K] [IsStrictOrderedRing K] [FloorRing K] {q : K}

/-- One unit of the last place that a number is rounded to. -/
def lastPlace (q : K) : K := 10 ^ (Int.log 10 |q| + 1 - precision)

/-- The nearest number with `precision` significant digits, of two the one further from zero. -/
def rounded (q : K) : K := SignType.sign q * round (|q| / lastPlace q) * lastPlace q

theorem lastPlace_pos (q : K) : 0 < lastPlace q := zpow_pos (by norm_num) _

@[simp]
theorem rounded_zero : rounded (0 : K) = 0 := by simp [rounded]

/-- What is between two powers of ten has one unit. -/
theorem lastPlace_eq {m : ℤ} (hlow : 10 ^ (m - 1) ≤ |q|) (hhigh : |q| < 10 ^ m) :
    lastPlace q = 10 ^ (m - precision) := by
  have hpos : 0 < |q| := (zpow_pos (by norm_num) _).trans_le hlow
  have hle := (Int.zpow_le_iff_le_log (R := K) (by norm_num : 1 < 10) hpos).mp
    (by exact_mod_cast hlow)
  have hlt := (Int.lt_zpow_iff_log_lt (R := K) (by norm_num : 1 < 10) hpos).mp
    (by exact_mod_cast hhigh)
  rw [lastPlace, show Int.log 10 |q| = m - 1 by omega]
  congr 1
  omega

theorem rounded_of_natCast {k : ℕ} (h : |q| / lastPlace q = k) : rounded q = q := by
  rw [rounded, h, round_natCast, Int.cast_natCast, ← h, mul_assoc,
    div_mul_cancel₀ _ (lastPlace_pos q).ne', sign_mul_abs]

/-- What has fewer digits stays as it is. -/
theorem rounded_of_lt {k : ℕ} (hk : k < 10 ^ precision) {e : ℤ} (hq : |q| = k * 10 ^ e) :
    rounded q = q := by
  obtain rfl | hzero := eq_or_ne q 0
  · exact rounded_zero
  have hpos : 0 < |q| := abs_pos.mpr hzero
  have hlt : |q| < 10 ^ (precision + e) := by
    rw [hq, zpow_add₀ (by norm_num), zpow_natCast]
    exact mul_lt_mul_of_pos_right (by exact_mod_cast hk) (zpow_pos (by norm_num) _)
  have hlog := (Int.lt_zpow_iff_log_lt (R := K) (by norm_num : 1 < 10) hpos).mp
    (by exact_mod_cast hlt)
  obtain ⟨t, ht⟩ := Int.eq_ofNat_of_zero_le
    (show 0 ≤ e - (Int.log 10 |q| + 1 - precision) by omega)
  apply rounded_of_natCast (k := k * 10 ^ t)
  nth_rewrite 1 [hq]
  rw [lastPlace, mul_div_assoc, ← zpow_sub₀ (by norm_num), ht, Nat.cast_mul, Nat.cast_pow]
  simp

theorem rounded_of_le {k : ℕ} (hk : k ≤ 10 ^ precision) {e : ℤ} (hq : |q| = k * 10 ^ e) :
    rounded q = q := by
  obtain hlt | rfl := hk.lt_or_eq
  · exact rounded_of_lt hlt hq
  · -- One digit more is a power of ten.
    apply rounded_of_lt (k := 10 ^ (precision - 1)) (e := e + 1) (by decide +kernel)
    have hpower : 10 ^ precision = 10 ^ (precision - 1) * 10 := by decide +kernel
    rw [hq, hpower, zpow_add₀ (by norm_num), zpow_one, Nat.cast_mul, Nat.cast_ofNat]
    ring

theorem rounded_intCast {n : ℤ} (h : n.natAbs ≤ 10 ^ precision) : rounded (n : K) = n :=
  rounded_of_le h (e := 0) (by rw [zpow_zero, mul_one, Nat.cast_natAbs, Int.cast_abs])

theorem div_lastPlace_lt (q : K) : |q| / lastPlace q < 10 ^ precision := by
  have hlt := Int.lt_zpow_succ_log_self (R := K) (by norm_num : 1 < 10) |q|
  rw [div_lt_iff₀ (lastPlace_pos q), lastPlace, ← zpow_natCast, ← zpow_add₀ (by norm_num)]
  convert hlt using 2
  · norm_num
  · omega

/-- What is rounded stays as it is. -/
theorem rounded_rounded (q : K) : rounded (rounded q) = rounded q := by
  obtain rfl | hq := eq_or_ne q 0
  · rw [rounded_zero, rounded_zero]
  have hnonneg : 0 ≤ round (|q| / lastPlace q) := by
    rw [round_eq]
    exact Int.floor_nonneg.mpr (by have := lastPlace_pos q; positivity)
  obtain ⟨k, hk⟩ := Int.eq_ofNat_of_zero_le hnonneg
  have hle : k ≤ 10 ^ precision := by
    have hround : round (|q| / lastPlace q) < 10 ^ precision + 1 := by
      rw [round_eq, Int.floor_lt]
      push_cast
      linarith [div_lastPlace_lt q]
    rw [hk] at hround
    exact_mod_cast Int.lt_add_one_iff.mp hround
  refine rounded_of_le (k := k) (e := Int.log 10 |q| + 1 - precision) hle ?_
  rw [rounded, hk, abs_mul, abs_mul, abs_of_pos (lastPlace_pos q), Int.cast_natCast, Nat.abs_cast,
    lastPlace]
  obtain hneg | hpos := lt_or_gt_of_ne hq
  · simp [sign_neg hneg]
  · simp [sign_pos hpos]

end Rounded

theorem round_div (n d : ℕ) (hd : 0 < d) : round ((n : ℚ) / d) = divideHalfUp n d := by
  have hsum : (n : ℚ) / d + 1 / 2 = ((2 * n + d : ℕ) : ℚ) / (2 * d : ℕ) := by
    push_cast
    field_simp
  rw [round_eq, hsum, Rat.floor_natCast_div_natCast]
  rfl

theorem digitCount_le {n k : ℕ} (hk : 0 < k) (h : n < 10 ^ k) : digitCount n ≤ k := by
  obtain rfl | hn := eq_or_ne n 0
  · rwa [digitCount]
  · have hlt := (powerOfTen_digitCount_le hn).trans_lt h
    rw [powerOfTen_eq, Nat.pow_lt_pow_iff_right (by norm_num)] at hlt
    omega

theorem abs_tmod_lt {a b : ℤ} (hb : b ≠ 0) : |a.tmod b| < |b| := by
  rw [Int.abs_eq_natAbs, Int.abs_eq_natAbs, Int.natAbs_tmod, Int.ofNat_lt]
  exact Nat.mod_lt _ (Int.natAbs_pos.mpr hb)

theorem sign_tmod (a b : ℤ) : a.tmod b = 0 ∨ (a.tmod b).sign = a.sign := by
  by_cases hzero : a.tmod b = 0
  · exact Or.inl hzero
  right
  obtain hneg | rfl | hpos := lt_trichotomy a 0
  · have hnonneg := Int.tmod_nonneg b (neg_nonneg.mpr hneg.le)
    rw [Int.neg_tmod] at hnonneg
    rw [Int.sign_eq_neg_one_of_neg hneg, Int.sign_eq_neg_one_of_neg (by omega)]
  · exact absurd (Int.zero_tmod b) hzero
  · have hnonneg := Int.tmod_nonneg b hpos.le
    rw [Int.sign_eq_one_of_pos hpos, Int.sign_eq_one_of_pos (by omega)]

namespace Decimal

variable {x y : Decimal}

/-! ## Rounded decimals -/

theorem toRat_eq_zero_iff : x.toRat = 0 ↔ x.digits = 0 := by
  rw [toRat, mul_eq_zero, Int.cast_eq_zero, or_iff_left (zpow_ne_zero _ (by norm_num))]

@[simp]
theorem toRat_zero : zero.toRat = 0 := by simp [zero]

theorem sign_toRat (hx : x.digits ≠ 0) :
    (SignType.sign x.toRat : ℚ) = if x.digits < 0 then -1 else 1 := by
  split
  · rename_i hneg
    rw [sign_neg (toRat_neg_iff.mpr hneg)]
    rfl
  · rename_i hneg
    rw [sign_pos (toRat_pos_iff.mpr (by omega))]
    rfl

theorem toRat_withSign (negative : Bool) (digits : ℕ) (scale : ℤ) :
    (withSign negative digits scale).toRat =
      (if negative then -1 else 1) * digits * 10 ^ (-scale) := by
  cases negative <;> simp [withSign, toRat]

theorem lastPlace_toRat (hx : x.digits ≠ 0) :
    lastPlace x.toRat = 10 ^ (x.magnitude - precision) :=
  lastPlace_eq (le_abs_toRat hx) abs_toRat_lt

theorem cast_powerOfTen_sub {m n : ℕ} (h : n ≤ m) :
    (powerOfTen (m - n) : ℚ) = 10 ^ ((m : ℤ) - n) := by
  rw [powerOfTen_eq, Nat.cast_pow, ← zpow_natCast, Nat.cast_sub h, Nat.cast_ofNat]

/-- Digits that are divided down to the last place are the number, rounded. -/
theorem rounded_eq_toRat {q : ℚ} {negative : Bool} {n d : ℕ} {scale : ℤ} (hd : 0 < d)
    (hsign : (SignType.sign q : ℚ) = if negative then -1 else 1)
    (hplace : lastPlace q = 10 ^ (-scale)) (hdigits : |q| / 10 ^ (-scale) = (n : ℚ) / d) :
    rounded q = (withSign negative (divideHalfUp n d) scale).toRat := by
  rw [rounded, hplace, hdigits, round_div n d hd, hsign, toRat_withSign, Int.cast_natCast]

/-- Rounding a decimal is rounding its number. -/
theorem toRat_round (x : Decimal) : x.round.toRat = rounded x.toRat := by
  by_cases hx : x.digits = 0
  · have hzero : x.round = zero := if_pos (Int.natAbs_eq_zero.mpr hx)
    rw [hzero, toRat_zero, toRat_eq_zero_iff.mpr hx, rounded_zero]
  have hsign := sign_toRat hx
  have hnatAbs : x.digits.natAbs ≠ 0 := Int.natAbs_ne_zero.mpr hx
  unfold Decimal.round roundBy
  dsimp only
  rw [if_neg hnatAbs]
  split
  · rename_i hcount
    have hfew : x.digits.natAbs < 10 ^ precision :=
      (lt_powerOfTen_digitCount _).trans_le (Nat.pow_le_pow_right (by norm_num) hcount)
    have hscale : (10 : ℚ) ^ ((precision : ℤ) - digitCount x.digits.natAbs) *
        10 ^ (-(x.scale + precision - digitCount x.digits.natAbs)) = 10 ^ (-x.scale) := by
      rw [← zpow_add₀ (by norm_num)]
      congr 1
      omega
    rw [rounded_of_lt hfew abs_toRat, toRat_withSign, ← sign_mul_abs x.toRat, hsign, abs_toRat,
      Nat.cast_mul, cast_powerOfTen_sub hcount, ← hscale]
    simp only [decide_eq_true_eq]
    ring
  · rename_i hcount
    refine (rounded_eq_toRat (powerOfTen_pos _) (by simpa using hsign) ?_ ?_).symm
    · rw [lastPlace_toRat hx, magnitude]
      congr 1
      omega
    · rw [abs_toRat, cast_powerOfTen_sub (by omega), mul_div_assoc, ← zpow_sub₀ (by norm_num),
        div_eq_mul_inv, ← zpow_neg]
      congr 2
      omega

/-! ## Sums, products and remainders -/

@[simp]
theorem toRat_neg (x : Decimal) : x.neg.toRat = -x.toRat := by simp [neg, toRat]

@[simp]
theorem toRat_abs (x : Decimal) : x.abs.toRat = |x.toRat| := by
  rw [abs_toRat]
  rfl

theorem toRat_add (x y : Decimal) : (x.add y).toRat = rounded (x.toRat + y.toRat) := by
  rw [add, toRat_round, toRat_eq_digitsAt (le_max_left x.scale y.scale),
    toRat_eq_digitsAt (le_max_right x.scale y.scale), ← add_mul, ← Int.cast_add]
  rfl

theorem toRat_sub (x y : Decimal) : (x.sub y).toRat = rounded (x.toRat - y.toRat) := by
  rw [sub, toRat_add, toRat_neg, sub_eq_add_neg]

theorem toRat_mul (x y : Decimal) : (x.mul y).toRat = rounded (x.toRat * y.toRat) := by
  rw [mul, toRat_round]
  congr 1
  rw [toRat, toRat, toRat, Int.cast_mul, neg_add, zpow_add₀ (by norm_num)]
  ring

/-- What is left of `x` when a multiple of `y` is taken away, and has no other sign than `x`. -/
def IsRemainder (x y r : ℚ) : Prop := (∃ k : ℤ, x = y * k + r) ∧ |r| < |y| ∧ 0 ≤ x * r

theorem isRemainder_tmod {a b : ℤ} (hb : b ≠ 0) : IsRemainder a b (a.tmod b : ℤ) := by
  have hlt := abs_tmod_lt (a := a) hb
  have hsign : 0 ≤ a * a.tmod b := by
    obtain ha | ha := le_total 0 a
    · exact mul_nonneg ha (Int.tmod_nonneg b ha)
    · have hneg := Int.tmod_nonneg b (neg_nonneg.mpr ha)
      rw [Int.neg_tmod] at hneg
      exact mul_nonneg_of_nonpos_of_nonpos ha (neg_nonneg.mp hneg)
  exact ⟨⟨a.tdiv b, by exact_mod_cast (Int.mul_tdiv_add_tmod a b).symm⟩, by exact_mod_cast hlt,
    by exact_mod_cast hsign⟩

theorem IsRemainder.mul {x y r c : ℚ} (h : IsRemainder x y r) (hc : 0 < c) :
    IsRemainder (x * c) (y * c) (r * c) := by
  obtain ⟨⟨k, hk⟩, hlt, hsign⟩ := h
  refine ⟨⟨k, by rw [hk]; ring⟩, ?_, ?_⟩
  · rw [abs_mul, abs_mul]
    exact mul_lt_mul_of_pos_right hlt (abs_pos.mpr hc.ne')
  · rw [mul_mul_mul_comm]
    exact mul_nonneg hsign (mul_self_nonneg c)

/-- A multiple of a number that is below the number is zero. -/
theorem eq_zero_of_abs_lt {y d : ℚ} {k : ℤ} (hd : d = y * k) (hlt : |d| < |y|) : d = 0 := by
  have hsmall : |(k : ℚ)| < 1 := by
    rw [hd, abs_mul] at hlt
    exact lt_of_mul_lt_mul_left (by rwa [mul_one]) (abs_nonneg y)
  have hk : k = 0 := Int.abs_lt_one_iff.mp (by exact_mod_cast hsmall)
  rw [hd, hk, Int.cast_zero, mul_zero]

/-- There is one remainder only. -/
theorem IsRemainder.eq {x y r r' : ℚ} (h : IsRemainder x y r) (h' : IsRemainder x y r') :
    r = r' := by
  obtain ⟨⟨k, hk⟩, hlt, hsign⟩ := h
  obtain ⟨⟨k', hk'⟩, hlt', hsign'⟩ := h'
  obtain rfl | hx := eq_or_ne x 0
  · rw [eq_zero_of_abs_lt (k := -k) (by push_cast; linarith) hlt,
      eq_zero_of_abs_lt (k := -k') (by push_cast; linarith) hlt']
  · -- Remainders of one sign differ by less than the divisor.
    have hdiff : |r - r'| < |y| := by
      rw [abs_lt] at hlt hlt' ⊢
      obtain hneg | hpos := lt_or_gt_of_ne hx
      · have := nonpos_of_mul_nonneg_right hsign hneg
        have := nonpos_of_mul_nonneg_right hsign' hneg
        constructor <;> linarith
      · have := nonneg_of_mul_nonneg_right hsign hpos
        have := nonneg_of_mul_nonneg_right hsign' hpos
        constructor <;> linarith
    have hmultiple : r - r' = y * (k' - k : ℤ) := by
      push_cast
      linarith
    exact sub_eq_zero.mp (eq_zero_of_abs_lt hmultiple hdiff)

theorem toRat_rem (x : Decimal) (hy : y.toRat ≠ 0) :
    ∃ r, IsRemainder x.toRat y.toRat r ∧ (x.rem y).toRat = rounded r := by
  have hx := toRat_eq_digitsAt (le_max_left x.scale y.scale)
  have hy' := toRat_eq_digitsAt (le_max_right x.scale y.scale)
  refine ⟨_, ?_, toRat_round _⟩
  have hdigits : y.digitsAt (max x.scale y.scale) ≠ 0 := by
    rintro hzero
    rw [hy', hzero, Int.cast_zero, zero_mul] at hy
    exact hy rfl
  rw [hx, hy']
  exact (isRemainder_tmod hdigits).mul (zpow_pos (by norm_num) _)

/-! ## Quotients -/

theorem isZero_iff : x.isZero ↔ x.toRat = 0 := by
  rw [isZero, beq_iff_eq, toRat_eq_zero_iff]

/-- The number of digits that a quotient has before its point. -/
def quotientPlaces (n d : ℕ) : ℤ :=
  let a := digitCount n
  let b := digitCount d
  if n * powerOfTen (b - a) < d * powerOfTen (a - b) then (a : ℤ) - b else (a : ℤ) - b + 1

theorem quotientShift_eq (n d : ℕ) : quotientShift n d = (precision - quotientPlaces n d).toNat :=
  rfl

theorem natCast_lt_zpow (n : ℕ) : (n : ℚ) < 10 ^ (digitCount n : ℤ) := by
  rw [zpow_natCast]
  exact_mod_cast lt_powerOfTen_digitCount n

theorem zpow_le_natCast {n : ℕ} (hn : n ≠ 0) : (10 : ℚ) ^ ((digitCount n : ℤ) - 1) ≤ n := by
  rw [← Nat.cast_pred (digitCount_pos n), zpow_natCast]
  exact_mod_cast powerOfTen_digitCount_le hn

theorem mul_powerOfTen_lt_iff {n d : ℕ} (hd : d ≠ 0) (a b : ℕ) :
    n * powerOfTen (b - a) < d * powerOfTen (a - b) ↔ (n : ℚ) / d < 10 ^ ((a : ℤ) - b) := by
  have hpower : ((powerOfTen (a - b) : ℕ) : ℚ) =
      10 ^ ((a : ℤ) - b) * (powerOfTen (b - a) : ℕ) := by
    rw [powerOfTen_eq, powerOfTen_eq, Nat.cast_pow, Nat.cast_pow, Nat.cast_ofNat, ← zpow_natCast,
      ← zpow_natCast, ← zpow_add₀ (by norm_num)]
    congr 1
    omega
  have hpos : (0 : ℚ) < (powerOfTen (b - a) : ℕ) := by exact_mod_cast powerOfTen_pos _
  have hd' : (0 : ℚ) < d := by exact_mod_cast Nat.pos_of_ne_zero hd
  rw [← Nat.cast_lt (α := ℚ), Nat.cast_mul, Nat.cast_mul, hpower, ← mul_assoc,
    mul_lt_mul_iff_left₀ hpos, div_lt_iff₀ hd', mul_comm (d : ℚ)]

theorem quotient_lt {n d : ℕ} (hd : d ≠ 0) : (n : ℚ) / d < 10 ^ quotientPlaces n d := by
  have hd' : (0 : ℚ) < d := by exact_mod_cast Nat.pos_of_ne_zero hd
  unfold quotientPlaces
  dsimp only
  split
  · rename_i hlt
    exact (mul_powerOfTen_lt_iff hd _ _).mp hlt
  · calc
      (n : ℚ) / d < 10 ^ (digitCount n : ℤ) / d := div_lt_div_of_pos_right (natCast_lt_zpow n) hd'
      _ ≤ 10 ^ (digitCount n : ℤ) / 10 ^ ((digitCount d : ℤ) - 1) :=
          div_le_div_of_nonneg_left (by positivity) (by positivity) (zpow_le_natCast hd)
      _ = 10 ^ ((digitCount n : ℤ) - digitCount d + 1) := by
          rw [← zpow_sub₀ (by norm_num)]
          congr 1
          omega

theorem le_quotient {n d : ℕ} (hn : n ≠ 0) (hd : d ≠ 0) :
    10 ^ (quotientPlaces n d - 1) ≤ (n : ℚ) / d := by
  have hd' : (0 : ℚ) < d := by exact_mod_cast Nat.pos_of_ne_zero hd
  unfold quotientPlaces
  dsimp only
  split
  · calc
      (10 : ℚ) ^ ((digitCount n : ℤ) - digitCount d - 1)
        = 10 ^ ((digitCount n : ℤ) - 1) / 10 ^ (digitCount d : ℤ) := by
          rw [← zpow_sub₀ (by norm_num)]
          congr 1
          omega
      _ ≤ n / 10 ^ (digitCount d : ℤ) := by
          gcongr
          exact zpow_le_natCast hn
      _ ≤ n / d := div_le_div_of_nonneg_left (by positivity) hd' (natCast_lt_zpow d).le
  · rename_i hlt
    rw [mul_powerOfTen_lt_iff hd, not_lt] at hlt
    rwa [add_sub_cancel_right]

theorem toRat_of_isUnit (h : y.isUnit) : y.toRat = 1 := by
  rw [isUnit, Bool.and_eq_true, same_iff, toRat_ofInt, Int.cast_one] at h
  exact h.2

theorem abs_quotient (x y : Decimal) : |x.toRat / y.toRat| =
    (x.digits.natAbs : ℚ) / y.digits.natAbs * 10 ^ (-(x.scale - y.scale)) := by
  rw [abs_div, abs_toRat, abs_toRat, mul_div_mul_comm, ← zpow_sub₀ (by norm_num)]
  congr 2
  omega

theorem sign_quotient (hx : x.digits ≠ 0) (hy : y.digits ≠ 0) :
    (SignType.sign (x.toRat / y.toRat) : ℚ) =
      if xor (decide (x.digits < 0)) (decide (y.digits < 0)) then -1 else 1 := by
  obtain hxn | hxp := lt_or_gt_of_ne hx <;> obtain hyn | hyp := lt_or_gt_of_ne hy
  · have := div_pos_of_neg_of_neg (toRat_neg_iff.mpr hxn) (toRat_neg_iff.mpr hyn)
    simp [hxn, hyn, this]
  · have := div_neg_of_neg_of_pos (toRat_neg_iff.mpr hxn) (toRat_pos_iff.mpr hyp)
    simp [hxn, hyp.not_gt, this]
  · have := div_neg_of_pos_of_neg (toRat_pos_iff.mpr hxp) (toRat_neg_iff.mpr hyn)
    simp [hxp.not_gt, hyn, this]
  · have := div_pos (toRat_pos_iff.mpr hxp) (toRat_pos_iff.mpr hyp)
    simp [hxp.not_gt, hyp.not_gt, this]

theorem natCast_quotientShift {n : ℕ} (hcount : digitCount n ≤ precision) (d : ℕ) :
    (quotientShift n d : ℤ) = precision - quotientPlaces n d := by
  have hpos := digitCount_pos d
  have hplaces : quotientPlaces n d ≤ precision := by
    unfold quotientPlaces
    dsimp only
    split <;> omega
  rw [quotientShift_eq]
  omega

theorem lastPlace_quotient {q : ℚ} {n d : ℕ} {e : ℤ} (hn : n ≠ 0) (hd : d ≠ 0)
    (hq : |q| = n / d * 10 ^ e) : lastPlace q = 10 ^ (quotientPlaces n d + e - precision) := by
  have hscale : (0 : ℚ) < 10 ^ e := by positivity
  apply lastPlace_eq
  · rw [hq, add_sub_right_comm, zpow_add₀ (by norm_num)]
    exact mul_le_mul_of_nonneg_right (le_quotient hn hd) hscale.le
  · rw [hq, zpow_add₀ (by norm_num)]
    exact mul_lt_mul_of_pos_right (quotient_lt hd) hscale

/-- A quotient is rounded from the exact one, where the dividend has no surplus digits. -/
theorem toRat_div (hcount : digitCount x.digits.natAbs ≤ precision) (hy : y.toRat ≠ 0) :
    (x.div y).toRat = rounded (x.toRat / y.toRat) := by
  have hyd : y.digits ≠ 0 := mt toRat_eq_zero_iff.mpr hy
  by_cases hx : x.digits = 0
  · have hzero : x.div y = zero := if_pos (Or.inl (Int.natAbs_eq_zero.mpr hx))
    rw [hzero, toRat_zero, toRat_eq_zero_iff.mpr hx, zero_div, rounded_zero]
  unfold div
  dsimp only
  rw [if_neg (by simp [hx, hyd])]
  split
  · rename_i hunit
    rw [toRat_round, toRat_of_isUnit hunit, div_one]
  have hn := Int.natAbs_ne_zero.mpr hx
  have hd := Int.natAbs_ne_zero.mpr hyd
  have habs := abs_quotient x y
  have hshift := natCast_quotientShift hcount y.digits.natAbs
  -- The digits of the quotient are found down to its last place; rounding keeps them.
  rw [toRat_round, ← rounded_eq_toRat (Nat.pos_of_ne_zero hd) (sign_quotient hx hyd),
    rounded_rounded]
  · rw [lastPlace_quotient hn hd habs]
    congr 1
    omega
  · rw [habs, mul_div_assoc, ← zpow_sub₀ (by norm_num), Nat.cast_mul, powerOfTen_eq,
      Nat.cast_pow, Nat.cast_ofNat, ← zpow_natCast, mul_div_right_comm]
    congr 2
    omega

/-! ## Roots -/

theorem sqrt?_eq_none_iff : x.sqrt? = none ↔ x.toRat < 0 := by
  rw [toRat_neg_iff, sqrt?]
  split
  · simp_all
  · split <;> simp_all

theorem magnitude_eq (hx : x.digits ≠ 0) (hy : y.digits ≠ 0) (h : x.toRat = y.toRat) :
    x.magnitude = y.magnitude := by
  apply le_antisymm <;> by_contra hlt <;> rw [not_le] at hlt
  · exact (abs_toRat_lt_abs hx hlt).ne (by rw [h])
  · exact (abs_toRat_lt_abs hy hlt).ne (by rw [h])

/-- The digits that the places of a root are reckoned from. -/
def rootDigits : ℕ := 2 * (precision + guardDigits)

/-- How far the point moves does not depend on the zeros behind the digits. -/
theorem scale_add_rootShift (h : digitCount x.digits.natAbs ≤ rootDigits) :
    x.scale + rootShift (digitCount x.digits.natAbs) x.scale =
      rootDigits - x.magnitude + (rootDigits - x.magnitude) % 2 := by
  unfold rootShift magnitude
  unfold rootDigits at h ⊢
  dsimp only
  split <;> omega

theorem digits_mul_powerOfTen (x : Decimal) (n : ℕ) :
    ((x.digits.natAbs * powerOfTen n : ℕ) : ℚ) = |x.toRat| * 10 ^ (x.scale + n) := by
  rw [abs_toRat, mul_assoc, ← zpow_add₀ (by norm_num), neg_add_cancel_left, zpow_natCast,
    Nat.cast_mul, powerOfTen_eq, Nat.cast_pow, Nat.cast_ofNat]

/-- Decimals of one number have one root, where neither has surplus digits. -/
theorem sqrt?_eq_of_toRat_eq (hx : digitCount x.digits.natAbs ≤ rootDigits)
    (hy : digitCount y.digits.natAbs ≤ rootDigits) (h : x.toRat = y.toRat) :
    x.sqrt? = y.sqrt? := by
  have hneg : x.digits < 0 ↔ y.digits < 0 := by rw [← toRat_neg_iff, h, toRat_neg_iff]
  have hzero : x.digits = 0 ↔ y.digits = 0 := by rw [← toRat_eq_zero_iff, h, toRat_eq_zero_iff]
  unfold sqrt?
  dsimp only
  by_cases hxneg : x.digits < 0
  · rw [if_pos hxneg, if_pos (hneg.mp hxneg)]
  rw [if_neg hxneg, if_neg (mt hneg.mpr hxneg)]
  by_cases hxzero : x.digits = 0
  · rw [if_pos hxzero, if_pos (hzero.mp hxzero)]
  rw [if_neg hxzero, if_neg (mt hzero.mpr hxzero)]
  have hplaces : x.scale + rootShift (digitCount x.digits.natAbs) x.scale =
      y.scale + rootShift (digitCount y.digits.natAbs) y.scale := by
    rw [scale_add_rootShift hx, scale_add_rootShift hy,
      magnitude_eq hxzero (mt hzero.mpr hxzero) h]
  have hdigits : x.digits.natAbs * powerOfTen (rootShift (digitCount x.digits.natAbs) x.scale) =
      y.digits.natAbs * powerOfTen (rootShift (digitCount y.digits.natAbs) y.scale) := by
    have hcast := digits_mul_powerOfTen x (rootShift (digitCount x.digits.natAbs) x.scale)
    rw [h, hplaces, ← digits_mul_powerOfTen] at hcast
    exact_mod_cast hcast
  rw [hdigits, hplaces]

end Decimal

end RowGuard
