import Mathlib.Algebra.Order.Round
import Mathlib.Data.Int.Log
import Mathlib.Data.Rat.Floor
import Mathlib.Tactic.Linarith
import Mathlib.Tactic.NormNum
import Mathlib.Tactic.Positivity

/-!
# Rounding to single precision

Rationals rounded to the nearest integer, ties to even, and to the nearest number of
binary32. A number too large for binary32 is rounded here as if its exponent had no limit.
-/
namespace Rounding

/-- To the nearest integer, ties to even. -/
def rint (x : ℚ) : ℤ :=
  if x - ⌊x⌋ < 1 / 2 then ⌊x⌋
  else if 1 / 2 < x - ⌊x⌋ then ⌊x⌋ + 1
  else if ⌊x⌋ % 2 = 0 then ⌊x⌋
  else ⌊x⌋ + 1

theorem abs_rint_sub_le (x : ℚ) : |(rint x : ℚ) - x| ≤ 1 / 2 := by
  have hlow := Int.floor_le x
  have hhigh := Int.lt_floor_add_one x
  unfold rint
  split_ifs <;> rw [abs_le] <;> push_cast <;> constructor <;> linarith

@[simp] theorem rint_intCast (n : ℤ) : rint n = n := by
  simp [rint]

theorem rint_neg (x : ℚ) : rint (-x) = -rint x := by
  by_cases hint : (⌊x⌋ : ℚ) = x
  · rw [← hint, ← Int.cast_neg, rint_intCast, rint_intCast]
  · have hlow := lt_of_le_of_ne (Int.floor_le x) hint
    have hhigh := Int.lt_floor_add_one x
    -- between two integers the floor of the negative is one further down
    have hfloor : ⌊-x⌋ = -⌊x⌋ - 1 := by
      rw [Int.floor_eq_iff]
      push_cast
      constructor <;> linarith
    rw [rint, rint, hfloor]
    push_cast
    split_ifs <;> first | omega | (exfalso; linarith)

theorem rint_pos {x : ℚ} (h : 1 / 2 < x) : 0 < rint x := by
  have hnear := (abs_le.mp (abs_rint_sub_le x)).1
  have hpos : (0 : ℚ) < rint x := by linarith
  exact_mod_cast hpos

theorem rint_eq_zero {x : ℚ} (h : |x| < 1 / 2) : rint x = 0 := by
  obtain ⟨hneg, hpos⟩ := abs_lt.mp h
  obtain ⟨hlow, hhigh⟩ := abs_le.mp (abs_rint_sub_le x)
  have hgt : ((-1 : ℤ) : ℚ) < rint x := by push_cast; linarith
  have hlt : (rint x : ℚ) < ((1 : ℤ) : ℚ) := by push_cast; linarith
  have := Int.cast_lt.mp hgt
  have := Int.cast_lt.mp hlt
  omega

/-- The step between neighbours of binary32 around `x`: 24 significant bits, and none
below `2 ^ (-149)`. -/
def ulp (x : ℚ) : ℚ := 2 ^ (max (Int.log 2 |x|) (-126) - 23)

/-- The nearest number of binary32, ties to even. -/
def float32 (x : ℚ) : ℚ := rint (x / ulp x) * ulp x

theorem ulp_pos (x : ℚ) : 0 < ulp x := zpow_pos (by norm_num) _

theorem ulp_neg (x : ℚ) : ulp (-x) = ulp x := by
  rw [ulp, ulp, abs_neg]

theorem float32_neg (x : ℚ) : float32 (-x) = -float32 x := by
  rw [float32, float32, ulp_neg, neg_div, rint_neg, Int.cast_neg, neg_mul]

/-- A number of more than half the least step is more than half its own. -/
theorem ulp_lt {x : ℚ} (h : 2 ^ (-150 : ℤ) < x) : ulp x < 2 * x := by
  have hx : 0 < x := lt_trans (zpow_pos (by norm_num) _) h
  rw [ulp, abs_of_pos hx]
  rcases le_total (Int.log 2 x) (-126) with hsmall | hlarge
  · rw [max_eq_right hsmall]
    calc (2 : ℚ) ^ ((-126 : ℤ) - 23) = 2 * 2 ^ (-150 : ℤ) := by norm_num
      _ < 2 * x := by linarith
  · rw [max_eq_left hlarge]
    have hlog : (2 : ℚ) ^ Int.log 2 x ≤ x := by
      simpa using Int.zpow_log_le_self (b := 2) (by norm_num) hx
    calc (2 : ℚ) ^ (Int.log 2 x - 23) = 2 ^ Int.log 2 x * 2 ^ (-23 : ℤ) :=
          zpow_add₀ (by norm_num) _ _
      _ ≤ x * 2 ^ (-23 : ℤ) := by gcongr
      _ < 2 * x := by norm_num; linarith

theorem float32_pos {x : ℚ} (h : 2 ^ (-150 : ℤ) < x) : 0 < float32 x := by
  have hhalf : 1 / 2 < x / ulp x := by
    rw [lt_div_iff₀ (ulp_pos x)]
    linarith [ulp_lt h]
  have hsteps : (0 : ℚ) < rint (x / ulp x) := by exact_mod_cast rint_pos hhalf
  exact mul_pos hsteps (ulp_pos x)

theorem float32_eq_zero {x : ℚ} (h : |x| < 2 ^ (-150 : ℤ)) : float32 x = 0 := by
  have hstep : (2 : ℚ) ^ (-149 : ℤ) ≤ ulp x := by
    apply zpow_le_zpow_right₀ (by norm_num)
    have := le_max_right (Int.log 2 |x|) (-126)
    omega
  have hhalf : |x / ulp x| < 1 / 2 := by
    rw [abs_div, abs_of_pos (ulp_pos x), div_lt_iff₀ (ulp_pos x)]
    calc |x| < 2 ^ (-150 : ℤ) := h
      _ = 1 / 2 * 2 ^ (-149 : ℤ) := by norm_num
      _ ≤ 1 / 2 * ulp x := by gcongr
  rw [float32, rint_eq_zero hhalf, Int.cast_zero, zero_mul]

@[simp] theorem float32_one : float32 1 = 1 := by
  have hulp : ulp 1 = 1 / 8388608 := by
    rw [ulp, abs_one, Int.log_one_right]
    norm_num
  have hsteps : (1 : ℚ) / (1 / 8388608) = ((8388608 : ℤ) : ℚ) := by norm_num
  rw [float32, hulp, hsteps, rint_intCast]
  norm_num

@[simp] theorem float32_neg_one : float32 (-1) = -1 := by
  rw [float32_neg, float32_one]

end Rounding
