import Esnacc.Runtime.IntStore

/-!
The order of integers. Octets of different numbers are compared by their length, and others as
unsigned octets, which is the order of the integers only where no sign comes into it.
-/

namespace Esnacc.AsnInt

open BitString

/-- `memcmp(s1, s2, n) < 0`, for octets of one length. -/
def memcmpNeg : List Octet → List Octet → Bool
  | a :: as, b :: bs => if a = b then memcmpNeg as bs else a < b
  | _, _ => false

/-- `operator<`. -/
def opLt (x y : AsnInt) : Bool :=
  if x.mBytes.length < y.mBytes.length then true
  else if y.mBytes.length < x.mBytes.length then false
  else memcmpNeg x.mBytes y.mBytes

/-- The two comparisons of objects are those of the integers. -/
def ComparesAsIntegers (x y : AsnInt) : Prop :=
  (opLt x y = true ↔ x.value < y.value) ∧ (opEq x y = true ↔ x.value = y.value)

/-- The octet that repeats a sign. -/
def signOctet (os : List Octet) : Octet := if signBit os then 0xFF else 0

/-- Of the longer octets `ps`, those that `os` has no counterpart of say nothing. -/
def OnlyRepeatsSign (os ps : List Octet) : Prop :=
  ps.take (ps.length - os.length) =
    List.replicate (ps.length - os.length) (signOctet (ps.drop (ps.length - os.length)))

instance (os ps : List Octet) : Decidable (OnlyRepeatsSign os ps) :=
  inferInstanceAs (Decidable (_ = _))

/-- The longer octets `ps` stand for the larger integer: they are not negative or, where they are
longer without need, what is left of them comes after `os`. -/
def LongerIsLarger (os ps : List Octet) : Prop :=
  if OnlyRepeatsSign os ps then
    if signBit os = signBit ps then memcmpNeg os (ps.drop (ps.length - os.length)) = true
    else signBit os = true
  else signBit ps = false

/-- Octets of one length have one sign, and of others the longer ones stand for the larger
integer. -/
def OrderedByOctets (x y : AsnInt) : Prop :=
  if x.mBytes.length = y.mBytes.length then signBit x.mBytes = signBit y.mBytes
  else if x.mBytes.length < y.mBytes.length then LongerIsLarger x.mBytes y.mBytes
  else LongerIsLarger y.mBytes x.mBytes

variable {os ps : List Octet}

/-- On octets of one length, `memcmp` compares what they denote as unsigned. -/
theorem memcmpNeg_iff (h : os.length = ps.length) :
    memcmpNeg os ps = true ↔ natOfOctets os < natOfOctets ps := by
  induction os generalizing ps with
  | nil =>
      obtain rfl : ps = [] := List.length_eq_zero_iff.mp h.symm
      simp [memcmpNeg]
  | cons a as ih =>
      cases ps with
      | nil => cases h
      | cons b bs =>
          have hlen : as.length = bs.length := Nat.succ.inj h
          have ha := natOfOctets_lt as
          have hb := natOfOctets_lt bs
          rw [memcmpNeg, natOfOctets_cons, natOfOctets_cons, hlen]
          rw [hlen] at ha
          split
          · next hab =>
              rw [ih hlen, hab]
              omega
          · next hab =>
              have hne : a.toNat ≠ b.toNat := fun heq => hab (BitVec.eq_of_toNat_eq heq)
              rw [decide_eq_true_iff, BitVec.lt_def]
              constructor
              · intro hlt
                nlinarith
              · intro hlt
                by_contra hge
                have hgt : b.toNat + 1 ≤ a.toNat := by omega
                nlinarith

/-- With one sign, the order as unsigned is the one of the integers. -/
theorem memcmpNeg_iff_of_signBit (h : os.length = ps.length) (hsign : signBit os = signBit ps) :
    memcmpNeg os ps = true ↔ intOfOctets os < intOfOctets ps := by
  rw [memcmpNeg_iff h, intOfOctets, intOfOctets, hsign, h]
  omega

theorem intOfOctets_lt_of_signBit (h : signBit os ≠ signBit ps) :
    intOfOctets os < intOfOctets ps ↔ signBit os = true := by
  have hos := intOfOctets_neg_iff os
  have hps := intOfOctets_neg_iff ps
  cases h1 : signBit os with
  | false =>
      have h2 : signBit ps = true := by
        cases h2 : signBit ps with
        | false => exact absurd (h1.trans h2.symm) h
        | true => rfl
      rw [h1] at hos
      rw [h2] at hps
      have hneg := hps.mpr rfl
      have hnonneg : ¬ intOfOctets os < 0 := fun hlt => nomatch hos.mp hlt
      exact iff_of_false (by omega) (fun hf => nomatch hf)
  | true =>
      have h2 : signBit ps = false := by
        cases h2 : signBit ps with
        | false => rfl
        | true => exact absurd (h1.trans h2.symm) h
      rw [h1] at hos
      rw [h2] at hps
      have hneg := hos.mpr rfl
      have hnonneg : ¬ intOfOctets ps < 0 := fun hlt => nomatch hps.mp hlt
      exact iff_of_true (by omega) rfl

/-! ### Octets that repeat the sign -/

theorem signBit_signOctet_cons (os rest : List Octet) :
    signBit (signOctet os :: rest) = signBit os := by
  rw [signOctet]
  cases h : signBit os with
  | false => exact (by decide : (0 : Octet).msb = false)
  | true => exact (by decide : (0xFF : Octet).msb = true)

theorem intOfOctets_signOctet_cons (os : List Octet) :
    intOfOctets (signOctet os :: os) = intOfOctets os := by
  cases os with
  | nil => decide
  | cons o os =>
      cases h : o.msb with
      | false =>
          rw [signOctet, show signBit (o :: os) = false from h]
          exact intOfOctets_drop_zero h
      | true =>
          rw [signOctet, show signBit (o :: os) = true from h]
          exact intOfOctets_drop_ones h

/-- Octets in front that repeat the sign change neither the sign nor the integer. -/
theorem signBit_extended (k : ℕ) (os : List Octet) :
    signBit (List.replicate k (signOctet os) ++ os) = signBit os := by
  cases k with
  | zero => rfl
  | succ k => exact signBit_signOctet_cons os _

theorem intOfOctets_extended (k : ℕ) (os : List Octet) :
    intOfOctets (List.replicate k (signOctet os) ++ os) = intOfOctets os := by
  induction k with
  | zero => rfl
  | succ k ih =>
      have hsign : signOctet (List.replicate k (signOctet os) ++ os) = signOctet os := by
        rw [signOctet, signBit_extended, ← signOctet]
      rw [List.replicate_succ, List.cons_append, ← ih]
      have hcons := intOfOctets_signOctet_cons (List.replicate k (signOctet os) ++ os)
      rwa [hsign] at hcons

/-- Longer octets that only repeat a sign in front denote what stands behind. -/
theorem eq_extended (h : OnlyRepeatsSign os ps) :
    ps = List.replicate (ps.length - os.length) (signOctet (ps.drop (ps.length - os.length))) ++
      ps.drop (ps.length - os.length) := by
  conv_lhs => rw [← List.take_append_drop (ps.length - os.length) ps, h]

/-- A number that fewer octets can hold repeats its sign in the octets there are too many of. -/
theorem onlyRepeatsSign_of_small (hlen : os.length ≤ ps.length)
    (hge : -(256 ^ os.length) ≤ 2 * intOfOctets ps) (hlt : 2 * intOfOctets ps < 256 ^ os.length) :
    OnlyRepeatsSign os ps := by
  have htail := intOfOctets_lowOctets hge hlt
  have hlow := length_lowOctets os.length (intOfOctets ps)
  generalize lowOctets os.length (intOfOctets ps) = tail at htail hlow
  have hps : ps = List.replicate (ps.length - os.length) (signOctet tail) ++ tail := by
    refine eq_of_intOfOctets_eq ?_ ?_
    · rw [List.length_append, List.length_replicate, hlow]
      omega
    · rw [intOfOctets_extended, htail]
  rw [OnlyRepeatsSign]
  generalize ps.length - os.length = k at hps
  rw [hps, List.drop_left' List.length_replicate, List.take_left' List.length_replicate]

/-- The longer octets stand for the larger integer exactly where they are not negative or repeat
a sign without need. -/
theorem longerIsLarger_iff (h : os.length < ps.length) :
    LongerIsLarger os ps ↔ intOfOctets os < intOfOctets ps := by
  rw [LongerIsLarger]
  split
  · next hrep =>
      have hps := eq_extended hrep
      have hlen : os.length = (ps.drop (ps.length - os.length)).length := by
        rw [List.length_drop]
        omega
      have hvalue : intOfOctets ps = intOfOctets (ps.drop (ps.length - os.length)) := by
        conv_lhs => rw [hps]
        exact intOfOctets_extended _ _
      have hbit : signBit ps = signBit (ps.drop (ps.length - os.length)) := by
        conv_lhs => rw [hps]
        exact signBit_extended _ _
      rw [hvalue]
      split
      · next hsign => exact memcmpNeg_iff_of_signBit hlen (hsign.trans hbit)
      · next hsign => exact (intOfOctets_lt_of_signBit (hbit ▸ hsign)).symm
  · next hrep =>
      have hge := le_intOfOctets os
      have hlt := intOfOctets_lt os
      have hneg := intOfOctets_neg_iff ps
      have hlarge : ¬ (-(256 ^ os.length) ≤ 2 * intOfOctets ps ∧
          2 * intOfOctets ps < 256 ^ os.length) := fun hsmall =>
        hrep (onlyRepeatsSign_of_small h.le hsmall.1 hsmall.2)
      have hpos : (0 : ℤ) < 256 ^ os.length := by positivity
      cases hsign : signBit ps with
      | false =>
          rw [hsign] at hneg
          have hnonneg : ¬ intOfOctets ps < 0 := fun hlt => nomatch hneg.mp hlt
          refine iff_of_true rfl ?_
          by_contra hle
          exact hlarge ⟨by linarith, by linarith⟩
      | true =>
          rw [hsign] at hneg
          have hnegative := hneg.mpr rfl
          refine iff_of_false (fun hf => nomatch hf) fun hless => ?_
          exact hlarge ⟨by linarith, by linarith⟩

/-- The comparisons are those of the integers exactly where the octets are ordered as these are. -/
theorem comparesAsIntegers_iff (x y : AsnInt) : ComparesAsIntegers x y ↔ OrderedByOctets x y := by
  rw [ComparesAsIntegers, OrderedByOctets, opEq_iff, opLt]
  by_cases hlen : x.mBytes.length = y.mBytes.length
  · have heq : x.mBytes = y.mBytes ↔ x.value = y.value :=
      ⟨fun h => congrArg intOfOctets h, eq_of_intOfOctets_eq hlen⟩
    rw [if_pos hlen, if_neg (by omega), if_neg (by omega), and_iff_left heq]
    constructor
    · intro hlt
      by_contra hsign
      have hlt' := memcmpNeg_iff hlen
      have hneg := intOfOctets_lt_of_signBit hsign
      rw [hlt', value, value, hneg] at hlt
      cases hx : signBit x.mBytes with
      | false =>
          have hy : signBit y.mBytes = true := by
            rw [hx] at hsign
            simpa using hsign
          have h1 := natOfOctets_lt_of_nonneg hx
          have h2 := le_natOfOctets_of_neg hy
          rw [hlen] at h1
          have hlt'' := hlt.mp (by omega)
          rw [hx] at hlt''
          cases hlt''
      | true =>
          have hy : signBit y.mBytes = false := by
            rw [hx] at hsign
            simpa using hsign
          have h1 := natOfOctets_lt_of_nonneg hy
          have h2 := le_natOfOctets_of_neg hx
          rw [hlen] at h2
          have hlt'' := hlt.mpr hx
          omega
    · exact memcmpNeg_iff_of_signBit hlen
  · have hne : x.mBytes ≠ y.mBytes := fun h => hlen (congrArg List.length h)
    rw [if_neg hlen]
    by_cases hless : x.mBytes.length < y.mBytes.length
    · rw [if_pos hless, if_pos hless, longerIsLarger_iff hless]
      simp only [hne, true_iff, false_iff, value]
      exact ⟨fun h => h.1, fun h => ⟨h, by omega⟩⟩
    · rw [if_neg hless, if_neg hless, if_pos (by omega), longerIsLarger_iff (by omega)]
      simp only [hne, false_iff, value, Bool.false_eq_true]
      omega

/-- One comes before minus one. -/
theorem not_comparesAsIntegers : ¬ ∀ x y : AsnInt, ComparesAsIntegers x y := by
  intro hall
  have hlt := (hall ⟨1, [0x01]⟩ ⟨-1, [0xFF]⟩).1.mp (by decide)
  exact absurd hlt (by decide)

end Esnacc.AsnInt
