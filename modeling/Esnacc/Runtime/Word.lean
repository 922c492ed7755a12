import Mathlib

/-!
Conversions between the integer types of C++, whose widths are those of a
64-bit Unix: `int` has 32 bits, `long` and `unsigned long` have 64.
-/

namespace Esnacc

/-- The value of `z` converted to `int`. -/
def toInt32 (z : ℤ) : ℤ := z.bmod (2 ^ 32)

theorem toInt32_eq {z : ℤ} (hge : -2 ^ 31 ≤ z) (hlt : z < 2 ^ 31) : toInt32 z = z := by
  apply Int.bmod_eq_of_le <;> norm_num <;> omega

theorem le_toInt32 (z : ℤ) : -2 ^ 31 ≤ toInt32 z := by
  have h := Int.le_bmod (x := z) (m := 2 ^ 32) (by decide)
  norm_num at h ⊢
  exact h

theorem toInt32_lt (z : ℤ) : toInt32 z < 2 ^ 31 := by
  have h := Int.bmod_lt (x := z) (m := 2 ^ 32) (by decide)
  norm_num at h ⊢
  exact h

theorem toInt32_emod (z : ℤ) : toInt32 z % 2 ^ 32 = z % 2 ^ 32 := Int.bmod_emod

/-- What wraps around is a multiple of `2 ^ 32`. -/
theorem toInt32_eq_iff {z v : ℤ} (hge : -2 ^ 31 ≤ v) (hlt : v < 2 ^ 31) :
    toInt32 z = v ↔ z % 2 ^ 32 = v % 2 ^ 32 := by
  have hmod := toInt32_emod z
  have hle := le_toInt32 z
  have hlt' := toInt32_lt z
  constructor <;> intro h <;> omega

/-- The value of `z` converted to `long`. -/
def toInt64 (z : ℤ) : ℤ := z.bmod (2 ^ 64)

theorem toInt64_eq {z : ℤ} (hge : -2 ^ 63 ≤ z) (hlt : z < 2 ^ 63) : toInt64 z = z := by
  apply Int.bmod_eq_of_le <;> norm_num <;> omega

/-- The value of `z` converted to `unsigned long`. -/
def toUlong (z : ℤ) : ℕ := (z % 2 ^ 64).toNat

theorem toUlong_natCast {n : ℕ} (h : n < 2 ^ 64) : toUlong n = n := by
  rw [toUlong]
  omega

/-- `wchar_t`. -/
abbrev WChar := BitVec 32

end Esnacc
