import Mathlib.Algebra.Order.Field.Rat
import Mathlib.Data.Int.Log
import Mathlib.Data.Rat.Floor
import Mathlib.Tactic.Linarith
import Mathlib.Tactic.Ring

set_option autoImplicit false

/-!
# Rounding to 53 bits

What a `float64` operation gives for an exact result: the nearest number with 53 significant
bits, and of two nearest ones the even one.  The exponent is not bounded, so this is the
format for numbers that are neither too large for it nor subnormal.

A rounding is off by at most one part in `2 ^ 53`, and not at all for the integers below that.

Nothing in this file names a particular program.
-/

namespace Drover.Foundation.Binary64

/-- The nearest integer, and the even one of two. -/
def nearest (x : ℚ) : ℤ :=
  if x - ⌊x⌋ < 1 / 2 then ⌊x⌋
  else if x - ⌊x⌋ = 1 / 2 then ⌊x⌋ + ⌊x⌋ % 2
  else ⌊x⌋ + 1

/-- The distance between two neighbours at `x`. -/
def ulp (x : ℚ) : ℚ := 2 ^ (Int.log 2 |x| - 52)

/-- The nearest number of the format. -/
def round (x : ℚ) : ℚ := nearest (x / ulp x) * ulp x

theorem abs_nearest_sub_le (x : ℚ) : |(nearest x : ℚ) - x| ≤ 1 / 2 := by
  have hfloor := Int.floor_le x
  have hlt := Int.lt_floor_add_one x
  unfold nearest
  rw [abs_le]
  split
  · constructor <;> linarith
  · rename_i hhigh
    split
    · rename_i htie
      have hparity : ⌊x⌋ % 2 = 0 ∨ ⌊x⌋ % 2 = 1 := by omega
      rcases hparity with heven | hodd
      · rw [heven, add_zero]
        constructor <;> linarith
      · rw [hodd]
        push_cast
        constructor <;> linarith
    · push_cast
      constructor <;> linarith

theorem nearest_intCast (n : ℤ) : nearest n = n := by
  unfold nearest
  rw [Int.floor_intCast, sub_self, if_pos (by norm_num)]

theorem ulp_pos (x : ℚ) : 0 < ulp x := zpow_pos (by norm_num) _

theorem ulp_le {x : ℚ} (h : x ≠ 0) : ulp x ≤ |x| / 2 ^ 52 := by
  have hlog : ((2 : ℕ) : ℚ) ^ Int.log 2 |x| ≤ |x| :=
    Int.zpow_log_le_self (by norm_num) (abs_pos.mpr h)
  rw [ulp, zpow_sub₀ (by norm_num)]
  exact div_le_div_of_nonneg_right hlog (by norm_num)

/-- A rounding is off by half the distance between two neighbours at most. -/
theorem abs_round_sub_le (x : ℚ) : |round x - x| ≤ |x| / 2 ^ 53 := by
  by_cases hx : x = 0
  · subst hx
    simp [round, nearest]
  · have hulp := ulp_pos x
    have hscale : round x - x = (nearest (x / ulp x) - x / ulp x) * ulp x := by
      rw [round, sub_mul, div_mul_cancel₀ x hulp.ne']
    calc |round x - x| = |(nearest (x / ulp x) : ℚ) - x / ulp x| * ulp x := by
          rw [hscale, abs_mul, abs_of_pos hulp]
      _ ≤ 1 / 2 * ulp x := mul_le_mul_of_nonneg_right (abs_nearest_sub_le _) hulp.le
      _ ≤ 1 / 2 * (|x| / 2 ^ 52) := mul_le_mul_of_nonneg_left (ulp_le hx) (by norm_num)
      _ = |x| / 2 ^ 53 := by ring

/-- Integers with no more than 53 bits are numbers of the format. -/
theorem round_natCast {n : ℕ} (h : n < 2 ^ 53) : round n = n := by
  by_cases hn : n = 0
  · subst hn
    simp [round, nearest]
  -- scaled by a power of two it is an integer still
  obtain ⟨k, hk⟩ : ∃ k : ℕ, Int.log 2 |(n : ℚ)| - 52 = -(k : ℤ) := by
    have hlog : Nat.log 2 n ≤ 52 := Nat.le_of_lt_succ (Nat.log_lt_of_lt_pow hn h)
    refine ⟨52 - Nat.log 2 n, ?_⟩
    rw [abs_of_nonneg (Nat.cast_nonneg n), Int.log_natCast]
    omega
  have hulp : ulp n = ((2 : ℚ) ^ k)⁻¹ := by
    rw [ulp, hk, zpow_neg, zpow_natCast]
  have hscaled : (n : ℚ) / ulp n = ((n * 2 ^ k : ℕ) : ℤ) := by
    rw [hulp, div_inv_eq_mul]
    push_cast
    rfl
  rw [round, hscaled, nearest_intCast, ← hscaled, div_mul_cancel₀ _ (ulp_pos _).ne']

end Drover.Foundation.Binary64
