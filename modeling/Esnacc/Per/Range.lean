import Esnacc.Runtime.Exception
import Esnacc.Runtime.Word

/-!
The number of bits for a range. Every constrained encoder and decoder computes
it with the same loop, which takes the powers of two from the range and
computes them as `1 << n` on an `int`.
-/

namespace Esnacc

/-- `(long)(1 << n)`. From 31 on the bit is shifted into and then beyond the
sign of an `int`. -/
def intShift (n : ℕ) : Except Fault ℤ :=
  if n < 31 then .ok (2 ^ n)
  else if n = 31 then .ok (-2 ^ 31)
  else .error (.undefinedBehaviour "shift beyond the width of int")

/-- The loop over `tempRange`; it does not get beyond the shift by 32. -/
def minBitsFrom : ℕ → ℤ → ℕ → Except Fault ℕ
  | 0, _, minBitsNeeded => .ok minBitsNeeded
  | steps + 1, tempRange, minBitsNeeded =>
      if 0 < tempRange then do
        let bit ← intShift minBitsNeeded
        minBitsFrom steps (tempRange - bit) (minBitsNeeded + 1)
      else .ok minBitsNeeded

def minBitsNeeded (tempRange : ℤ) : Except Fault ℕ := minBitsFrom 33 tempRange 0

theorem minBitsFrom_eq {r : ℕ} (hr : r < 2 ^ 31) (steps n : ℕ) (hn : n ≤ r.size)
    (hsteps : r.size < n + steps) :
    minBitsFrom steps (r - (2 ^ n - 1)) n = .ok r.size := by
  induction steps generalizing n with
  | zero => omega
  | succ steps ih =>
      rw [minBitsFrom]
      rcases Nat.lt_or_eq_of_le hn with hlt | rfl
      · have hpow : 2 ^ n ≤ r := Nat.lt_size.mp hlt
        have hcast : ((2 : ℤ) ^ n) ≤ r := by exact_mod_cast hpow
        have hbit : intShift n = .ok (2 ^ n) := by
          refine if_pos ?_
          have hsize : r.size ≤ 31 := Nat.size_le.mpr hr
          omega
        have hnext : (r : ℤ) - (2 ^ n - 1) - 2 ^ n = r - (2 ^ (n + 1) - 1) := by ring
        rw [if_pos (by linarith), hbit]
        show minBitsFrom steps (r - (2 ^ n - 1) - 2 ^ n) (n + 1) = _
        rw [hnext]
        exact ih (n + 1) hlt (by omega)
      · have hpow : r < 2 ^ r.size := Nat.lt_size_self r
        have hcast : (r : ℤ) < 2 ^ r.size := by exact_mod_cast hpow
        rw [if_neg (by linarith)]

/-- Below `2 ^ 31` the loop finds the number of binary digits. -/
theorem minBitsNeeded_eq {r : ℕ} (hr : r < 2 ^ 31) : minBitsNeeded r = .ok r.size := by
  have hsize : r.size ≤ 31 := Nat.size_le.mpr hr
  have h := minBitsFrom_eq hr 33 0 (Nat.zero_le _) (by omega)
  simpa [minBitsNeeded] using h

/-- A range that is not positive needs no bits. -/
theorem minBitsNeeded_of_nonpos {z : ℤ} (hz : z ≤ 0) : minBitsNeeded z = .ok 0 :=
  if_neg (not_lt.mpr hz)

theorem minBitsNeeded_of_lt {z : ℤ} (hz : z < 2 ^ 31) : minBitsNeeded z = .ok z.toNat.size := by
  rcases le_total z 0 with hneg | hnonneg
  · rw [minBitsNeeded_of_nonpos hneg, Int.toNat_of_nonpos hneg, Nat.size_zero]
  · have h := @minBitsNeeded_eq z.toNat (by omega)
    rwa [Int.toNat_of_nonneg hnonneg] at h

theorem minBitsFrom_error {z : ℤ} (hz : 2 ^ 31 ≤ z) (steps n : ℕ) (hn : n ≤ 31)
    (hsteps : 33 ≤ n + steps) :
    ∃ e, minBitsFrom steps (z - (2 ^ n - 1)) n = .error e := by
  induction steps generalizing n with
  | zero => omega
  | succ steps ih =>
      have hpow : ((2 : ℤ) ^ n) ≤ 2 ^ 31 := by exact_mod_cast Nat.pow_le_pow_right (by decide) hn
      rw [minBitsFrom, if_pos (by linarith)]
      rcases Nat.lt_or_eq_of_le hn with hlt | rfl
      · have hnext : z - (2 ^ n - 1) - 2 ^ n = z - (2 ^ (n + 1) - 1) := by ring
        have hbit : intShift n = .ok (2 ^ n) := if_pos hlt
        rw [hbit]
        show ∃ e, minBitsFrom steps (z - (2 ^ n - 1) - 2 ^ n) (n + 1) = .error e
        rw [hnext]
        exact ih (n + 1) hlt (by omega)
      · -- the sign bit makes the range grow, and the next shift is undefined
        obtain ⟨steps, rfl⟩ : ∃ m, steps = m + 1 := ⟨steps - 1, by omega⟩
        show ∃ e, minBitsFrom (steps + 1) (z - (2 ^ 31 - 1) - -2 ^ 31) 32 = .error e
        rw [minBitsFrom, if_pos (by linarith)]
        exact ⟨_, rfl⟩

/-- From `2 ^ 31` on the loop runs into a shift that is not defined. -/
theorem minBitsNeeded_error {z : ℤ} (hz : 2 ^ 31 ≤ z) : ∃ e, minBitsNeeded z = .error e := by
  have h := minBitsFrom_error hz 33 0 (by decide) le_rfl
  simpa [minBitsNeeded] using h

end Esnacc
