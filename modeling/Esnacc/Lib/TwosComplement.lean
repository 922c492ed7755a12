import Esnacc.Lib.BitString

/-!
Octets as signed numbers. A sequence of octets denotes an integer in two's
complement, most significant octet first. The file relates this number to the
unsigned one, says which leading octets can be dropped, and evaluates it with
the shifts of a machine word.
-/

namespace BitString

/-- The sign bit of a sequence of octets. -/
def signBit (os : List Octet) : Bool := (os.headD 0).msb

/-- The number a sequence of octets denotes in two's complement. -/
def intOfOctets (os : List Octet) : ℤ :=
  natOfOctets os - if signBit os then 256 ^ os.length else 0

@[simp] theorem intOfOctets_nil : intOfOctets [] = 0 := rfl

theorem intOfOctets_of_nonneg {os : List Octet} (h : signBit os = false) :
    intOfOctets os = natOfOctets os := by
  simp [intOfOctets, h]

theorem intOfOctets_of_neg {os : List Octet} (h : signBit os = true) :
    intOfOctets os = natOfOctets os - 256 ^ os.length := by
  simp [intOfOctets, h]

theorem msb_eq_decide (o : Octet) : o.msb = decide (128 ≤ o.toNat) := by
  rw [BitVec.msb_eq_decide]

/-- The sign bit splits the unsigned numbers in halves. -/
theorem natOfOctets_lt_of_nonneg {os : List Octet} (h : signBit os = false) :
    2 * natOfOctets os < 256 ^ os.length := by
  cases os with
  | nil => simp
  | cons o os =>
      have ho : ¬ 128 ≤ o.toNat := by
        rw [← decide_eq_true_iff (p := 128 ≤ o.toNat), ← msb_eq_decide]
        simpa [signBit] using h
      have hlt := natOfOctets_lt os
      rw [natOfOctets_cons, List.length_cons, pow_succ]
      nlinarith

theorem le_natOfOctets_of_neg {os : List Octet} (h : signBit os = true) :
    256 ^ os.length ≤ 2 * natOfOctets os := by
  cases os with
  | nil => simp [signBit] at h
  | cons o os =>
      have ho : 128 ≤ o.toNat := by
        rw [← decide_eq_true_iff (p := 128 ≤ o.toNat), ← msb_eq_decide]
        simpa [signBit] using h
      rw [natOfOctets_cons, List.length_cons, pow_succ]
      nlinarith [Nat.one_le_pow os.length 256 (by decide)]

theorem intOfOctets_lt (os : List Octet) : 2 * intOfOctets os < 256 ^ os.length := by
  have hpos : (0 : ℤ) < 256 ^ os.length := by positivity
  cases h : signBit os with
  | false =>
      rw [intOfOctets_of_nonneg h]
      exact_mod_cast natOfOctets_lt_of_nonneg h
  | true =>
      have hlt : (natOfOctets os : ℤ) < 256 ^ os.length := by exact_mod_cast natOfOctets_lt os
      rw [intOfOctets_of_neg h]
      linarith

theorem le_intOfOctets (os : List Octet) : -(256 ^ os.length) ≤ 2 * intOfOctets os := by
  cases h : signBit os with
  | false =>
      rw [intOfOctets_of_nonneg h]
      have hpos : (0 : ℤ) < 256 ^ os.length := by positivity
      linarith [Int.natCast_nonneg (natOfOctets os)]
  | true =>
      have hle : ((256 : ℤ) ^ os.length) ≤ 2 * natOfOctets os := by
        exact_mod_cast le_natOfOctets_of_neg h
      rw [intOfOctets_of_neg h]
      linarith

/-! ### Leading octets -/

/-- A zero octet in front makes a number unsigned. -/
theorem intOfOctets_zero_cons (os : List Octet) : intOfOctets (0 :: os) = natOfOctets os := by
  rw [intOfOctets_of_nonneg (by simp [signBit])]
  simp [natOfOctets_cons]

theorem intOfOctets_drop_zero {o : Octet} {os : List Octet} (h : o.msb = false) :
    intOfOctets (0 :: o :: os) = intOfOctets (o :: os) := by
  rw [intOfOctets_zero_cons, intOfOctets_of_nonneg (by simpa [signBit] using h)]

theorem intOfOctets_drop_ones {o : Octet} {os : List Octet} (h : o.msb = true) :
    intOfOctets (0xFF :: o :: os) = intOfOctets (o :: os) := by
  have hones : signBit (0xFF :: o :: os) = true := by
    show (0xFF : Octet).msb = true
    decide
  rw [intOfOctets_of_neg hones, intOfOctets_of_neg (by simpa [signBit] using h), natOfOctets_cons]
  simp only [List.length_cons, pow_succ]
  push_cast
  ring

/-! ### Machine words -/

/-- A word built from octets by shifting, over the sign extension. -/
def wordOfOctets (w : ℕ) (os : List Octet) : BitVec w :=
  os.foldl (fun (r : BitVec w) o => r <<< 8 ||| o.setWidth w) (if signBit os then -1 else 0)

theorem toNat_shiftLeft_or {w : ℕ} (r : BitVec w) (o : Octet) :
    (r <<< 8 ||| o.setWidth w).toNat = (r.toNat * 256 + o.toNat) % 2 ^ w := by
  rw [BitVec.toNat_or, BitVec.toNat_shiftLeft, BitVec.toNat_setWidth, ← Nat.or_mod_two_pow,
    ← Nat.shiftLeft_add_eq_or_of_lt o.isLt, Nat.shiftLeft_eq]

theorem toNat_foldl_shiftLeft_or {w : ℕ} (r : BitVec w) (os : List Octet) :
    (os.foldl (fun (r : BitVec w) o => r <<< 8 ||| o.setWidth w) r).toNat =
      (r.toNat * 256 ^ os.length + natOfOctets os) % 2 ^ w := by
  induction os generalizing r with
  | nil => simp [Nat.mod_eq_of_lt r.isLt]
  | cons o os ih =>
      rw [List.foldl_cons, ih, toNat_shiftLeft_or, natOfOctets_cons, List.length_cons, pow_succ,
        Nat.add_mod, Nat.mul_mod, Nat.mod_mod, ← Nat.mul_mod, ← Nat.add_mod]
      congr 1
      ring

/-- Octets that fit into the word are evaluated exactly. -/
theorem toInt_wordOfOctets {w : ℕ} {os : List Octet} (h : 8 * os.length ≤ w) :
    (wordOfOctets w os).toInt = intOfOctets os := by
  have hle : (256 : ℤ) ^ os.length ≤ 2 ^ w := by
    rw [show (256 : ℤ) = 2 ^ 8 by norm_num, ← pow_mul]
    exact_mod_cast Nat.pow_le_pow_right (by decide) h
  have hlt := intOfOctets_lt os
  have hge := le_intOfOctets os
  have hself : (intOfOctets os).bmod (2 ^ w) = intOfOctets os := by
    apply Int.bmod_eq_of_le_mul_two <;> push_cast <;> linarith
  -- modulo the word, the sign extension is what the octets lack
  have hmod : ∃ k, (((if signBit os then -1 else 0 : BitVec w).toNat * 256 ^ os.length +
      natOfOctets os : ℕ) : ℤ) = intOfOctets os + (2 ^ w : ℕ) * k := by
    cases hs : signBit os with
    | false => exact ⟨0, by simp [intOfOctets_of_nonneg hs]⟩
    | true =>
        refine ⟨256 ^ os.length, ?_⟩
        have hones : (-1 : BitVec w).toNat = 2 ^ w - 1 := by
          rw [show (-1 : BitVec w) = BitVec.allOnes w from BitVec.neg_one_eq_allOnes,
            BitVec.toNat_allOnes]
        rw [if_pos rfl, hones, intOfOctets_of_neg hs]
        push_cast [Nat.one_le_two_pow]
        ring
  obtain ⟨k, hk⟩ := hmod
  rw [BitVec.toInt_eq_toNat_bmod, wordOfOctets, toNat_foldl_shiftLeft_or, Int.natCast_mod,
    Int.emod_bmod, hk, Int.add_mul_bmod_self_left, hself]

end BitString
