import Esnacc.Lib.TwosComplement

/-!
Writing a number as octets. The low octets of an integer denote it in two's
complement as soon as they are enough of them, and the shortest sequence of
octets that denotes an integer is known by its length.
-/

namespace BitString

/-- The `n` low octets of a number, most significant first. -/
def lowOctets : ℕ → ℤ → List Octet
  | 0, _ => []
  | n + 1, v => lowOctets n (v / 256) ++ [BitVec.ofInt 8 v]

@[simp] theorem length_lowOctets (n : ℕ) (v : ℤ) : (lowOctets n v).length = n := by
  induction n generalizing v with
  | zero => rfl
  | succ n ih => simp [lowOctets, ih]

theorem emod_mul_split (v : ℤ) {a b : ℤ} (ha : 0 < a) (hb : 0 < b) :
    v % (a * b) = v % a + a * (v / a % b) := by
  have hlow := Int.mul_ediv_add_emod v a
  have hhigh := Int.mul_ediv_add_emod (v / a) b
  have hr := Int.emod_nonneg v (ne_of_gt ha)
  have hr' := Int.emod_lt_of_pos v ha
  have hq := Int.emod_nonneg (v / a) (ne_of_gt hb)
  have hq' : v / a % b + 1 ≤ b := Int.emod_lt_of_pos (v / a) hb
  have hunique := (Int.ediv_emod_unique (a := v) (b := a * b) (q := v / a / b)
    (r := v % a + a * (v / a % b)) (by positivity)).2
  refine (hunique ⟨?_, by positivity, ?_⟩).2
  · linear_combination hlow + a * hhigh
  · nlinarith

theorem natOfOctets_lowOctets (n : ℕ) (v : ℤ) :
    (natOfOctets (lowOctets n v) : ℤ) = v % 256 ^ n := by
  induction n generalizing v with
  | zero => simp [lowOctets]
  | succ n ih =>
      have hlow : ((BitVec.ofInt 8 v).toNat : ℤ) = v % 256 := by
        rw [BitVec.toNat_ofInt]
        omega
      have hsplit : v % (256 * 256 ^ n) = v % 256 + 256 * (v / 256 % 256 ^ n) :=
        emod_mul_split v (by norm_num) (by positivity)
      rw [lowOctets, natOfOctets_append, natOfOctets_singleton]
      push_cast
      rw [ih, hlow, pow_succ', hsplit, List.length_singleton]
      ring

/-- Enough octets denote the number. -/
theorem intOfOctets_lowOctets {n : ℕ} {v : ℤ} (hge : -(256 ^ n) ≤ 2 * v)
    (hlt : 2 * v < 256 ^ n) : intOfOctets (lowOctets n v) = v := by
  have hnat := natOfOctets_lowOctets n v
  have hpos : (0 : ℤ) < 256 ^ n := by positivity
  cases hs : signBit (lowOctets n v) with
  | false =>
      have hsmall := natOfOctets_lt_of_nonneg hs
      rw [length_lowOctets] at hsmall
      have hcast : 2 * (natOfOctets (lowOctets n v) : ℤ) < 256 ^ n := by exact_mod_cast hsmall
      rw [intOfOctets_of_nonneg hs, hnat]
      rcases Int.lt_or_le v 0 with hv | hv
      · rw [hnat, ← Int.add_emod_right, Int.emod_eq_of_lt (by linarith) (by linarith)] at hcast
        linarith
      · exact Int.emod_eq_of_lt hv (by linarith)
  | true =>
      have hlarge := le_natOfOctets_of_neg hs
      rw [length_lowOctets] at hlarge
      have hcast : (256 : ℤ) ^ n ≤ 2 * natOfOctets (lowOctets n v) := by exact_mod_cast hlarge
      rw [intOfOctets_of_neg hs, hnat, length_lowOctets]
      rcases Int.lt_or_le v 0 with hv | hv
      · rw [← Int.add_emod_right, Int.emod_eq_of_lt (by linarith) (by linarith)]
        ring
      · rw [hnat, Int.emod_eq_of_lt hv (by linarith)] at hcast
        linarith

/-- Octets of one length denote different numbers. -/
theorem eq_of_natOfOctets_eq {os ps : List Octet} (hlen : os.length = ps.length)
    (h : natOfOctets os = natOfOctets ps) : os = ps := by
  induction os generalizing ps with
  | nil => exact (List.length_eq_zero_iff.mp hlen.symm).symm
  | cons o os ih =>
      cases ps with
      | nil => cases hlen
      | cons p ps =>
          have htail : os.length = ps.length := Nat.succ.inj hlen
          have hlt := natOfOctets_lt os
          have hlt' := natOfOctets_lt ps
          rw [natOfOctets_cons, natOfOctets_cons, htail] at h
          rw [htail] at hlt
          have hhead : o.toNat = p.toNat := by
            rcases Nat.lt_trichotomy o.toNat p.toNat with hop | hop | hop
            · nlinarith
            · exact hop
            · nlinarith
          rw [hhead] at h
          rw [BitVec.eq_of_toNat_eq hhead, ih htail (Nat.add_left_cancel h)]

/-- No shorter sequence of octets denotes the same number. -/
def Shortest (os : List Octet) : Prop :=
  os ≠ [] ∧ ∀ ps, ps ≠ [] → intOfOctets ps = intOfOctets os → os.length ≤ ps.length

/-- A number that one octet less cannot hold is written in its shortest form. -/
theorem shortest_of_large {os : List Octet} {n : ℕ} (hlen : os.length = n + 1)
    (h : 0 < n → 2 * intOfOctets os < -(256 ^ n) ∨ 256 ^ n ≤ 2 * intOfOctets os) :
    Shortest os := by
  refine ⟨List.ne_nil_of_length_eq_add_one hlen, ?_⟩
  intro ps hne heq
  by_contra hshort
  have hpos := List.length_pos_of_ne_nil hne
  have hle : (256 : ℤ) ^ ps.length ≤ 256 ^ n :=
    pow_le_pow_right₀ (by norm_num) (by omega)
  have hlow := le_intOfOctets ps
  have hhigh := intOfOctets_lt ps
  rw [heq] at hlow hhigh
  rcases h (by omega) with hlt | hge <;> linarith

/-- Octets are the shortest ones of their number where the first nine bits differ. -/
theorem shortest_of_reduced {a b : Octet} {rest : List Octet} (hzeros : ¬ (a = 0 ∧ b.msb = false))
    (hones : ¬ (a = 0xFF ∧ b.msb = true)) : Shortest (a :: b :: rest) := by
  refine shortest_of_large (n := rest.length + 1) rfl fun _ => ?_
  have hrest : (natOfOctets rest : ℤ) < 256 ^ rest.length := by exact_mod_cast natOfOctets_lt rest
  have hrest0 : (0 : ℤ) ≤ natOfOctets rest := Int.natCast_nonneg _
  have hnat : (natOfOctets (a :: b :: rest) : ℤ) =
      a.toNat * 256 ^ (rest.length + 1) + (b.toNat * 256 ^ rest.length + natOfOctets rest) := by
    rw [natOfOctets_cons, natOfOctets_cons, List.length_cons]
    push_cast
    rfl
  have hpow : (256 : ℤ) ^ (rest.length + 1) = 256 * 256 ^ rest.length := pow_succ' 256 _
  have htop : (256 : ℤ) ^ (a :: b :: rest).length = 65536 * 256 ^ rest.length := by
    rw [List.length_cons, List.length_cons, pow_succ' 256 (rest.length + 1), hpow]
    ring
  have ha := a.isLt
  have hb := b.isLt
  have hzeros' : a.toNat = 0 → 128 ≤ b.toNat := by
    intro h
    by_contra hless
    exact hzeros ⟨BitVec.toNat_inj.mp h, by rw [msb_eq_decide]; exact decide_eq_false hless⟩
  have hones' : a.toNat = 255 → b.toNat < 128 := by
    intro h
    by_contra hless
    have hall : a = 0xFF := by
      apply BitVec.eq_of_toNat_eq
      rw [h]
      rfl
    exact hones ⟨hall, by rw [msb_eq_decide]; exact decide_eq_true (Nat.not_lt.mp hless)⟩
  generalize (256 : ℤ) ^ rest.length = p at hrest hnat hpow htop
  rw [hpow] at hnat ⊢
  have hp : 0 < p := hrest0.trans_lt hrest
  cases hsign : signBit (a :: b :: rest) with
  | false =>
      right
      rw [intOfOctets_of_nonneg hsign, hnat]
      rcases Nat.eq_zero_or_pos a.toNat with ha0 | ha0
      · have hbit : (128 : ℤ) ≤ b.toNat := by omega
        rw [ha0]
        nlinarith [mul_le_mul_of_nonneg_right hbit hp.le]
      · have hone : (1 : ℤ) ≤ a.toNat := by omega
        have hb0 : (0 : ℤ) ≤ b.toNat * p := by positivity
        nlinarith [mul_le_mul_of_nonneg_right hone hp.le]
  | true =>
      left
      rw [intOfOctets_of_neg hsign, hnat, htop]
      rcases Nat.lt_or_ge a.toNat 255 with ha254 | ha255
      · have hle : (a.toNat : ℤ) ≤ 254 := by omega
        have hble : (b.toNat : ℤ) ≤ 255 := by omega
        nlinarith [mul_le_mul_of_nonneg_right hle hp.le, mul_le_mul_of_nonneg_right hble hp.le]
      · have hle : (a.toNat : ℤ) ≤ 255 := by omega
        have hbit : (b.toNat : ℤ) ≤ 127 := by omega
        nlinarith [mul_le_mul_of_nonneg_right hle hp.le, mul_le_mul_of_nonneg_right hbit hp.le]

theorem intOfOctets_neg_iff (os : List Octet) : intOfOctets os < 0 ↔ signBit os = true := by
  cases h : signBit os with
  | false =>
      rw [intOfOctets_of_nonneg h]
      simp
  | true =>
      have hlt : (natOfOctets os : ℤ) < 256 ^ os.length := by exact_mod_cast natOfOctets_lt os
      rw [intOfOctets_of_neg h]
      exact iff_of_true (by linarith) rfl

/-- Octets of one length denote different integers. -/
theorem eq_of_intOfOctets_eq {os ps : List Octet} (hlen : os.length = ps.length)
    (h : intOfOctets os = intOfOctets ps) : os = ps := by
  have hsign : signBit os = signBit ps := by
    rw [Bool.eq_iff_iff, ← intOfOctets_neg_iff, ← intOfOctets_neg_iff, h]
  refine eq_of_natOfOctets_eq hlen ?_
  rw [intOfOctets, intOfOctets, hsign, hlen] at h
  exact_mod_cast sub_left_inj.mp h

/-- A number has one shortest form. -/
theorem Shortest.eq_of_intOfOctets_eq {os ps : List Octet} (hos : Shortest os)
    (hps : Shortest ps) (h : intOfOctets os = intOfOctets ps) : os = ps :=
  BitString.eq_of_intOfOctets_eq
    (Nat.le_antisymm (hos.2 ps hps.1 h.symm) (hps.2 os hos.1 h)) h

theorem shortest_singleton (o : Octet) : Shortest [o] :=
  ⟨List.cons_ne_nil o [], fun _ hne _ => List.length_pos_of_ne_nil hne⟩

/-- How many octets the shortest form of a number takes. -/
theorem Shortest.length_le_iff {os : List Octet} (h : Shortest os) {n : ℕ} (hn : 0 < n) :
    os.length ≤ n ↔ -(256 ^ n) ≤ 2 * intOfOctets os ∧ 2 * intOfOctets os < 256 ^ n := by
  constructor
  · intro hle
    have hpow : (256 : ℤ) ^ os.length ≤ 256 ^ n := pow_le_pow_right₀ (by norm_num) hle
    exact ⟨(neg_le_neg hpow).trans (le_intOfOctets os), (intOfOctets_lt os).trans_le hpow⟩
  · rintro ⟨hge, hlt⟩
    have hlow := intOfOctets_lowOctets hge hlt
    have hle := h.2 (lowOctets n (intOfOctets os))
      (List.ne_nil_of_length_pos (by rw [length_lowOctets]; exact hn)) hlow
    rwa [length_lowOctets] at hle

end BitString
