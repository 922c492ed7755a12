import Esnacc.Lib.TwosComplement
import Esnacc.Runtime.Exception

/-!
`AsnInt`: an integer kept as the octets of its encoding. Beside them stands
`m_value`, a machine word that is refreshed from the octets when an integer is
set or decoded and that nothing reads.
-/

namespace Esnacc

open BitString

/-- `m_len` is the number of octets in `mBytes`. -/
structure AsnInt where
  mValue : ℤ
  mBytes : List Octet
  deriving DecidableEq, Repr

namespace AsnInt

/-- The integer the object holds. -/
def value (x : AsnInt) : ℤ := intOfOctets x.mBytes

/-- What `Clear` leaves. -/
def cleared : AsnInt := ⟨0, []⟩

/-! ### Conversions -/

def tryGetInt (x : AsnInt) : Option ℤ :=
  if 4 < x.mBytes.length then none else some (wordOfOctets 32 x.mBytes).toInt

def tryGetInt64 (x : AsnInt) : Option ℤ :=
  if 8 < x.mBytes.length then none else some (wordOfOctets 64 x.mBytes).toInt

/-- `GetInt`, which `operator AsnIntType` calls. -/
def getInt (x : AsnInt) : Except Fault ℤ :=
  match x.tryGetInt with
  | some iResult => .ok iResult
  | none => .error (except "integer is too big for conversion to int" .integerError)

def getLongLong (x : AsnInt) : Except Fault ℤ :=
  match x.tryGetInt64 with
  | some llResult => .ok llResult
  | none => .error (except "integer is too big for conversion to long long" .integerError)

theorem getInt_eq {x : AsnInt} (h : x.mBytes.length ≤ 4) : x.getInt = .ok x.value := by
  have hfit : ¬ 4 < x.mBytes.length := by omega
  rw [getInt, tryGetInt, if_neg hfit, toInt_wordOfOctets (by omega)]
  rfl

theorem getInt_error {x : AsnInt} (h : 4 < x.mBytes.length) : ∃ e, x.getInt = .error e := by
  rw [getInt, tryGetInt, if_pos h]
  exact ⟨_, rfl⟩

theorem getLongLong_eq {x : AsnInt} (h : x.mBytes.length ≤ 8) : x.getLongLong = .ok x.value := by
  have hfit : ¬ 8 < x.mBytes.length := by omega
  rw [getLongLong, tryGetInt64, if_neg hfit, toInt_wordOfOctets (by omega)]
  rfl

theorem getLongLong_error {x : AsnInt} (h : 8 < x.mBytes.length) :
    ∃ e, x.getLongLong = .error e := by
  rw [getLongLong, tryGetInt64, if_pos h]
  exact ⟨_, rfl⟩

/-! ### Setting -/

/-- Drops leading octets while the first nine bits are zeros. -/
def dropZeros : List Octet → List Octet
  | a :: b :: rest =>
      if ¬ (a &&& 0xFF ≠ 0 ∨ b &&& 0x80 ≠ 0) then dropZeros (b :: rest) else a :: b :: rest
  | os => os

/-- Drops leading octets while the first nine bits are ones. -/
def dropOnes : List Octet → List Octet
  | a :: b :: rest => if a = 0xFF ∧ b &&& 0x80 ≠ 0 then dropOnes (b :: rest) else a :: b :: rest
  | os => os

/-- The octets that are stored. One octet that is not to be read as unsigned is
not stored at all. -/
def derOctets (pData : List Octet) (unsignedFlag : Bool) : List Octet :=
  if unsignedFlag then
    if (dropZeros pData).headD 0 &&& 0x80 ≠ 0 then 0 :: dropZeros pData else dropZeros pData
  else if 1 < pData.length then dropZeros (dropOnes pData)
  else []

def storeDERInteger (pData : List Octet) (unsignedFlag : Bool) : Except Fault AsnInt := do
  let mBytes := derOctets pData unsignedFlag
  let mValue ← getLongLong ⟨0, mBytes⟩
  return ⟨mValue, mBytes⟩

/-- The octets of a machine integer, most significant first. -/
def bigEndian (iIn : ℤ) : List Octet :=
  [BitVec.ofInt 8 (iIn >>> (24 : ℕ)), BitVec.ofInt 8 (iIn >>> (16 : ℕ)),
    BitVec.ofInt 8 (iIn >>> (8 : ℕ)), BitVec.ofInt 8 iIn]

/-- `Set(AsnIntType)`. -/
def set (iIn : ℤ) : Except Fault AsnInt := storeDERInteger (bigEndian iIn) (0 ≤ iIn)

/-- `Set(str, len)` with the default for the sign. -/
def setUnsigned (pData : List Octet) : Except Fault AsnInt := storeDERInteger pData true

theorem and_highBit_ne_zero (o : Octet) : o &&& 0x80 ≠ 0 ↔ o.msb = true := by
  revert o
  decide

theorem and_allBits (o : Octet) : o &&& 0xFF = o := by
  revert o
  decide

theorem dropZeros_cons (a b : Octet) (rest : List Octet) :
    dropZeros (a :: b :: rest) =
      if a = 0 ∧ b.msb = false then dropZeros (b :: rest) else a :: b :: rest := by
  simp only [dropZeros, and_allBits, and_highBit_ne_zero]
  congr 1
  simp

theorem dropOnes_cons (a b : Octet) (rest : List Octet) :
    dropOnes (a :: b :: rest) =
      if a = 0xFF ∧ b.msb = true then dropOnes (b :: rest) else a :: b :: rest := by
  simp only [dropOnes, and_highBit_ne_zero]

theorem intOfOctets_dropZeros (os : List Octet) : intOfOctets (dropZeros os) = intOfOctets os := by
  induction os with
  | nil => rfl
  | cons a os ih =>
      cases os with
      | nil => rfl
      | cons b rest =>
          rw [dropZeros_cons]
          split
          · rename_i h
            rw [ih, h.1, intOfOctets_drop_zero h.2]
          · rfl

theorem natOfOctets_dropZeros (os : List Octet) : natOfOctets (dropZeros os) = natOfOctets os := by
  induction os with
  | nil => rfl
  | cons a os ih =>
      cases os with
      | nil => rfl
      | cons b rest =>
          rw [dropZeros_cons]
          split
          · rename_i h
            rw [ih, h.1, natOfOctets_cons 0]
            simp
          · rfl

theorem intOfOctets_dropOnes (os : List Octet) : intOfOctets (dropOnes os) = intOfOctets os := by
  induction os with
  | nil => rfl
  | cons a os ih =>
      cases os with
      | nil => rfl
      | cons b rest =>
          rw [dropOnes_cons]
          split
          · rename_i h
            rw [ih, h.1, intOfOctets_drop_ones h.2]
          · rfl

theorem length_dropZeros_le (os : List Octet) : (dropZeros os).length ≤ os.length := by
  induction os with
  | nil => exact le_rfl
  | cons a os ih =>
      cases os with
      | nil => exact le_rfl
      | cons b rest =>
          rw [dropZeros_cons]
          split
          · exact ih.trans (Nat.le_succ _)
          · exact le_rfl

theorem length_dropOnes_le (os : List Octet) : (dropOnes os).length ≤ os.length := by
  induction os with
  | nil => exact le_rfl
  | cons a os ih =>
      cases os with
      | nil => exact le_rfl
      | cons b rest =>
          rw [dropOnes_cons]
          split
          · exact ih.trans (Nat.le_succ _)
          · exact le_rfl

/-- Once an octet has been dropped the sign bit is clear. -/
theorem dropZeros_eq_self_of_signBit {os : List Octet} (h : signBit (dropZeros os) = true) :
    dropZeros os = os := by
  induction os with
  | nil => rfl
  | cons a os ih =>
      cases os with
      | nil => rfl
      | cons b rest =>
          rw [dropZeros_cons] at h ⊢
          split
          · rename_i hdrop
            rw [if_pos hdrop] at h
            have hself := ih h
            rw [hself] at h
            simp [signBit, hdrop.2] at h
          · rfl

/-- Nothing but a needed sign octet stands in front. -/
theorem dropZeros_reduced (os : List Octet) :
    (dropZeros os).length ≤ 1 ∨ (dropZeros os).headD 0 ≠ 0 ∨
      signBit (dropZeros os).tail = true := by
  induction os with
  | nil => exact Or.inl (Nat.zero_le _)
  | cons a os ih =>
      cases os with
      | nil => exact Or.inl le_rfl
      | cons b rest =>
          rw [dropZeros_cons]
          split
          · exact ih
          · rename_i h
            by_cases ha : a = 0
            · refine Or.inr (Or.inr ?_)
              simpa [ha, signBit] using h
            · exact Or.inr (Or.inl (by simpa using ha))

theorem dropZeros_ne_nil {os : List Octet} (h : os ≠ []) : dropZeros os ≠ [] := by
  induction os with
  | nil => exact absurd rfl h
  | cons a os ih =>
      cases os with
      | nil => exact h
      | cons b rest =>
          rw [dropZeros_cons]
          split
          · exact ih (List.cons_ne_nil b rest)
          · exact List.cons_ne_nil _ _

theorem signBit_eq_msb (os : List Octet) : os.headD 0 &&& 0x80 ≠ 0 ↔ signBit os = true :=
  and_highBit_ne_zero _

theorem derOctets_unsigned (pData : List Octet) :
    derOctets pData true =
      if signBit (dropZeros pData) = true then 0 :: pData else dropZeros pData := by
  simp only [derOctets, if_true, signBit_eq_msb]
  split
  · rename_i h
    rw [dropZeros_eq_self_of_signBit h]
  · rfl

/-- Octets that are read as unsigned are stored with a clear sign bit. -/
theorem intOfOctets_derOctets_unsigned (pData : List Octet) :
    intOfOctets (derOctets pData true) = natOfOctets pData := by
  rw [derOctets_unsigned]
  split
  · exact intOfOctets_zero_cons pData
  · rename_i h
    rw [intOfOctets_of_nonneg (Bool.eq_false_iff.mpr h), natOfOctets_dropZeros]

theorem intOfOctets_derOctets_signed {pData : List Octet} (h : 1 < pData.length) :
    intOfOctets (derOctets pData false) = intOfOctets pData := by
  simp only [derOctets, if_pos h, Bool.false_eq_true, if_false]
  rw [intOfOctets_dropZeros, intOfOctets_dropOnes]

theorem length_derOctets_signed_le (pData : List Octet) :
    (derOctets pData false).length ≤ pData.length := by
  simp only [derOctets, Bool.false_eq_true, if_false]
  split
  · exact (length_dropZeros_le _).trans (length_dropOnes_le _)
  · exact Nat.zero_le _

theorem length_derOctets_unsigned_le {pData : List Octet} (h : signBit pData = false) :
    (derOctets pData true).length ≤ pData.length := by
  rw [derOctets_unsigned]
  split
  · rename_i hsign
    rw [dropZeros_eq_self_of_signBit hsign, h] at hsign
    cases hsign
  · exact length_dropZeros_le pData

theorem length_derOctets_unsigned_of_signBit {pData : List Octet} (h : signBit pData = true) :
    (derOctets pData true).length = pData.length + 1 := by
  have hkeep : dropZeros pData = pData := by
    cases pData with
    | nil => rfl
    | cons a os =>
        cases os with
        | nil => rfl
        | cons b rest =>
            rw [dropZeros_cons, if_neg]
            rintro ⟨rfl, -⟩
            simp [signBit] at h
  rw [derOctets_unsigned, hkeep, if_pos h, List.length_cons]

theorem length_derOctets_le (pData : List Octet) (unsignedFlag : Bool) :
    (derOctets pData unsignedFlag).length ≤ pData.length + 1 := by
  cases unsignedFlag with
  | false => exact (length_derOctets_signed_le pData).trans (Nat.le_succ _)
  | true =>
      cases h : signBit pData with
      | false => exact (length_derOctets_unsigned_le h).trans (Nat.le_succ _)
      | true => exact (length_derOctets_unsigned_of_signBit h).le

theorem storeDERInteger_eq {pData : List Octet} (unsignedFlag : Bool) (h : pData.length ≤ 7) :
    storeDERInteger pData unsignedFlag =
      .ok ⟨intOfOctets (derOctets pData unsignedFlag), derOctets pData unsignedFlag⟩ := by
  have hlen := length_derOctets_le pData unsignedFlag
  have hfit : (derOctets pData unsignedFlag).length ≤ 8 := by omega
  have hword := @getLongLong_eq ⟨0, derOctets pData unsignedFlag⟩ hfit
  simp only [storeDERInteger, hword, bind, Except.bind, pure, Except.pure]
  rfl

/-! ### Machine integers -/

@[simp] theorem length_bigEndian (z : ℤ) : (bigEndian z).length = 4 := rfl

theorem toNat_ofInt_shiftRight (z : ℤ) (k : ℕ) :
    ((BitVec.ofInt 8 (z >>> k)).toNat : ℤ) = z / 2 ^ k % 256 := by
  rw [BitVec.toNat_ofInt, Int.shiftRight_eq_div_pow]
  have h : (0 : ℤ) ≤ z / 2 ^ k % 256 := Int.emod_nonneg _ (by decide)
  simpa using h

theorem natOfOctets_bigEndian (z : ℤ) : (natOfOctets (bigEndian z) : ℤ) = z % 2 ^ 32 := by
  have h₀ := toNat_ofInt_shiftRight z 0
  have h₁ := toNat_ofInt_shiftRight z 8
  have h₂ := toNat_ofInt_shiftRight z 16
  have h₃ := toNat_ofInt_shiftRight z 24
  simp only [Int.shiftRight_zero, pow_zero, Int.ediv_one] at h₀
  simp only [bigEndian, natOfOctets_cons, natOfOctets_nil, List.length_cons, List.length_nil]
  push_cast
  rw [h₀, h₁, h₂, h₃]
  omega

theorem signBit_bigEndian {z : ℤ} (hge : -2 ^ 31 ≤ z) (hlt : z < 2 ^ 31) :
    signBit (bigEndian z) = decide (z < 0) := by
  have h := toNat_ofInt_shiftRight z 24
  show (BitVec.ofInt 8 (z >>> (24 : ℕ))).msb = _
  rw [msb_eq_decide]
  congr 1
  simp only [eq_iff_iff]
  rw [show (2 : ℤ) ^ 24 = 16777216 by norm_num] at h
  constructor <;> intro hz <;> omega

theorem intOfOctets_bigEndian {z : ℤ} (hge : -2 ^ 31 ≤ z) (hlt : z < 2 ^ 31) :
    intOfOctets (bigEndian z) = z := by
  have hnat := natOfOctets_bigEndian z
  have hsign := signBit_bigEndian hge hlt
  rw [intOfOctets, hsign, hnat, length_bigEndian]
  split
  · rename_i h
    have hneg : z < 0 := by simpa using h
    omega
  · rename_i h
    have hnonneg : ¬ z < 0 := by simpa using h
    omega

/-- A machine integer is stored as itself, in at most four octets. -/
theorem set_eq {z : ℤ} (hge : -2 ^ 31 ≤ z) (hlt : z < 2 ^ 31) :
    set z = .ok ⟨z, derOctets (bigEndian z) (0 ≤ z)⟩ ∧
      intOfOctets (derOctets (bigEndian z) (0 ≤ z)) = z ∧
      (derOctets (bigEndian z) (0 ≤ z)).length ≤ 4 := by
  have hstore := storeDERInteger_eq (decide (0 ≤ z)) (show (bigEndian z).length ≤ 7 by simp)
  have hvalue : intOfOctets (derOctets (bigEndian z) (0 ≤ z)) = z := by
    by_cases hz : 0 ≤ z
    · rw [decide_eq_true hz, intOfOctets_derOctets_unsigned, natOfOctets_bigEndian]
      omega
    · rw [decide_eq_false hz, intOfOctets_derOctets_signed (by simp),
        intOfOctets_bigEndian hge hlt]
  refine ⟨?_, hvalue, ?_⟩
  · rw [set, hstore, hvalue]
  · by_cases hz : 0 ≤ z
    · have hsign : signBit (bigEndian z) = false := by
        rw [signBit_bigEndian hge hlt]
        simpa using hz
      rw [decide_eq_true hz]
      exact length_derOctets_unsigned_le hsign
    · rw [decide_eq_false hz]
      exact length_derOctets_signed_le (bigEndian z)

end AsnInt

end Esnacc
