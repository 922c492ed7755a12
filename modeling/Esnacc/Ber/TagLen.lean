import Esnacc.Ber.Buffer
import Esnacc.Lib.Tlv

/-!
Tags and lengths: what the decoders accept, and what the functions that recompute the
size of a header from a decoded tag and length say.
-/

namespace Esnacc

open BitString Tlv

/-- `AsnTag`: the identifier octets from the left, filled up with zeros. -/
abbrev AsnTag := BitVec 32

def bytesInTag (tag : AsnTag) : ℕ :=
  if tag &&& 0x00FFFFFF = 0 then 1
  else if tag &&& 0x0000FFFF = 0 then 2
  else if tag &&& 0x000000FF = 0 then 3
  else 4

def bytesInLen (len : ℕ) : ℕ :=
  if len < 128 then 1
  else if len < 256 then 2
  else if len < 65536 then 3
  else if len < 16777126 then 4
  else 5

/-- `tagByte << (8 * k)`. -/
def tagShift (tagByte : Octet) (k : ℕ) : AsnTag := tagByte.setWidth 32 <<< (8 * k)

/-- The loop of `BDecTag`; `k` octets may follow the next one. -/
def bDecLongTag : ℕ → AsnTag → ℕ → BerM (AsnTag × ℕ)
  | 0, tagId, bytesDecoded => do
      let tagByte ← AsnBuf.getByte
      if tagByte &&& 0x80 = 0 then return (tagId ||| tagShift tagByte 0, bytesDecoded + 1)
      else throw (except "Tag value overflow" .invalidTag)
  | k + 1, tagId, bytesDecoded => do
      let tagByte ← AsnBuf.getByte
      if tagByte &&& 0x80 = 0 then return (tagId ||| tagShift tagByte (k + 1), bytesDecoded + 1)
      else bDecLongTag k (tagId ||| tagShift tagByte (k + 1)) (bytesDecoded + 1)

def bDecTag (bytesDecoded : ℕ) : BerM (AsnTag × ℕ) := do
  let tagByte ← AsnBuf.getByte
  if tagByte &&& 0x1F = 0x1F then bDecLongTag 2 (tagShift tagByte 3) (bytesDecoded + 1)
  else return (tagShift tagByte 3, bytesDecoded + 1)

/-- The octets of a long length, as an `AsnLen`. -/
def bDecLongLen : ℕ → ℕ → BerM ℕ
  | 0, len => return len
  | lenBytes + 1, len => do
      let byte ← AsnBuf.getByte
      bDecLongLen lenBytes ((256 * len + byte.toNat) % 2 ^ 64)

def bDecLen (bytesDecoded : ℕ) : BerM (ℕ × ℕ) := do
  let byte ← AsnBuf.getByte
  if byte.toNat < 128 then return (byte.toNat, bytesDecoded + 1)
  else if byte = openLength then return (indefiniteLen, bytesDecoded + 1)
  else
    let lenBytes := (byte &&& 0x7F).toNat
    if 8 < lenBytes then throw (boundsException "length overflow")
    else
      let len ← bDecLongLen lenBytes 0
      return (len, bytesDecoded + 1 + lenBytes)

/-- `BDecEoc`. -/
def bDecEoc (bytesDecoded : ℕ) : BerM ℕ := do
  let ch ← AsnBuf.getByte
  if ch ≠ 0 then throw (except "non zero byte in EOC or end of data reached" .decodeError)
  else return bytesDecoded + 2

/-- One octet is read and two are counted. -/
theorem bDecEoc_reads (past rest : List Octet) (n : ℕ) :
    Cursor.Reads past rest (bDecEoc n) [0] (n + 2) := rfl

/-! ### Tags -/

/-- The value of the octets that follow the first one. -/
def longTagOf : ℕ → AsnTag → List Octet → AsnTag
  | _, tagId, [] => tagId
  | k, tagId, o :: os => longTagOf (k - 1) (tagId ||| tagShift o k) os

/-- The value of identifier octets. -/
def tagOf : List Octet → AsnTag
  | [] => 0
  | o :: os => longTagOf 2 (tagShift o 3) os

theorem bDecLongTag_reads (past rest : List Octet) {os : List Octet} {k : ℕ} (h : isSubsequent os)
    (hlen : os.length ≤ k + 1) (tagId : AsnTag) (n : ℕ) :
    Cursor.Reads past rest (bDecLongTag k tagId n) os (longTagOf k tagId os, n + os.length) := by
  induction os generalizing past k tagId n with
  | nil => cases h
  | cons o os ih =>
      rw [isSubsequent] at h
      split at h
      · next hlast =>
          obtain rfl : os = [] := List.isEmpty_iff.mp h
          cases k with
          | zero =>
              show Cursor.Reads past rest _ ([o] ++ []) _
              refine (AsnBuf.getByte_reads past _ o).bind ?_
              rw [if_pos hlast]
              exact Cursor.Reads.pure _ _ _
          | succ k =>
              show Cursor.Reads past rest _ ([o] ++ []) _
              refine (AsnBuf.getByte_reads past _ o).bind ?_
              rw [if_pos hlast]
              exact Cursor.Reads.pure _ _ _
      · next hmore =>
          cases k with
          | zero =>
              obtain rfl : os = [] := List.length_eq_zero_iff.mp (by simpa using hlen)
              cases h
          | succ k =>
              show Cursor.Reads past rest _ ([o] ++ os) _
              refine (AsnBuf.getByte_reads past _ o).bind ?_
              rw [if_neg hmore]
              have := ih ([o].reverse ++ past) h (by simpa using hlen)
                (tagId ||| tagShift o (k + 1)) (n + 1)
              rwa [List.length_cons, ← add_assoc, add_right_comm]

theorem bDecLongTag_fails (past rest : List Octet) {os : List Octet} {k : ℕ} (h : isSubsequent os)
    (hlen : k + 1 < os.length) (tagId : AsnTag) (n : ℕ) :
    Cursor.Fails past (os ++ rest) (bDecLongTag k tagId n) := by
  induction os generalizing past k tagId n with
  | nil => cases h
  | cons o os ih =>
      rw [isSubsequent] at h
      split at h
      · obtain rfl : os = [] := List.isEmpty_iff.mp h
        simp at hlen
      · next hmore =>
          show Cursor.Fails past ([o] ++ (os ++ rest)) _
          cases k with
          | zero =>
              refine (AsnBuf.getByte_reads past _ o).bind_fails ?_
              rw [if_neg hmore]
              exact ⟨_, rfl⟩
          | succ k =>
              refine (AsnBuf.getByte_reads past _ o).bind_fails ?_
              rw [if_neg hmore]
              exact ih _ h (by simpa using hlen) _ _

/-- Identifiers of at most four octets are decoded. -/
theorem bDecTag_reads (past rest : List Octet) {tag : List Octet} (h : isIdentifier tag)
    (hlen : tag.length ≤ 4) (n : ℕ) :
    Cursor.Reads past rest (bDecTag n) tag (tagOf tag, n + tag.length) := by
  cases tag with
  | nil => cases h
  | cons o os =>
      rw [isIdentifier] at h
      show Cursor.Reads past rest _ ([o] ++ os) _
      refine (AsnBuf.getByte_reads past _ o).bind ?_
      split at h
      · next hlong =>
          rw [if_pos hlong]
          rw [List.length_cons] at hlen
          have := @bDecLongTag_reads ([o].reverse ++ past) rest os 2 h (by omega) (tagShift o 3)
            (n + 1)
          rwa [List.length_cons, ← add_assoc, add_right_comm]
      · next hshort =>
          obtain ⟨hnil, -⟩ := Bool.and_eq_true_iff.mp h
          obtain rfl : os = [] := List.isEmpty_iff.mp hnil
          rw [if_neg hshort]
          exact Cursor.Reads.pure _ _ _

theorem bDecTag_fails (past rest : List Octet) {tag : List Octet} (h : isIdentifier tag)
    (hlen : 4 < tag.length) (n : ℕ) : Cursor.Fails past (tag ++ rest) (bDecTag n) := by
  cases tag with
  | nil => cases h
  | cons o os =>
      rw [isIdentifier] at h
      show Cursor.Fails past ([o] ++ (os ++ rest)) _
      refine (AsnBuf.getByte_reads past _ o).bind_fails ?_
      split at h
      · next hlong =>
          rw [List.length_cons] at hlen
          rw [if_pos hlong]
          exact bDecLongTag_fails _ rest h (by omega) _ _
      · obtain ⟨hnil, -⟩ := Bool.and_eq_true_iff.mp h
        obtain rfl : os = [] := List.isEmpty_iff.mp hnil
        simp at hlen

/-! ### Lengths -/

theorem bDecLongLen_reads (past rest os : List Octet) {len : ℕ}
    (h : 256 ^ os.length * len + natOfOctets os < 2 ^ 64) :
    Cursor.Reads past rest (bDecLongLen os.length len) os
      (256 ^ os.length * len + natOfOctets os) := by
  induction os generalizing past len with
  | nil =>
      simp only [List.length_nil, pow_zero, one_mul, natOfOctets_nil, add_zero]
      exact Cursor.Reads.pure _ _ _
  | cons o os ih =>
      have hsplit : 256 ^ (o :: os).length * len + natOfOctets (o :: os) =
          256 ^ os.length * (256 * len + o.toNat) + natOfOctets os := by
        rw [natOfOctets_cons, List.length_cons, pow_succ]
        ring
      have hpos : 0 < 256 ^ os.length := by positivity
      rw [hsplit] at h ⊢
      have hfit : 256 * len + o.toNat < 2 ^ 64 := by nlinarith
      show Cursor.Reads past rest _ ([o] ++ os) _
      refine (AsnBuf.getByte_reads past _ o).bind ?_
      rw [Nat.mod_eq_of_lt hfit]
      exact ih _ h

theorem and_lowBits {o : Octet} (h : 128 ≤ o.toNat) : (o &&& 0x7F).toNat + 128 = o.toNat := by
  revert o
  decide

/-- Lengths of at most nine octets are decoded. -/
theorem bDecLen_reads (past rest : List Octet) {len : List Octet} {n : ℕ} (h : isLengthOf n len)
    (hlen : len.length ≤ 9) (bytesDecoded : ℕ) :
    Cursor.Reads past rest (bDecLen bytesDecoded) len (n, bytesDecoded + len.length) := by
  cases len with
  | nil => cases h
  | cons o os =>
      rw [isLengthOf] at h
      show Cursor.Reads past rest _ ([o] ++ os) _
      refine (AsnBuf.getByte_reads past _ o).bind ?_
      split at h
      · next hshort =>
          simp only [Bool.and_eq_true, List.isEmpty_iff, beq_iff_eq] at h
          obtain ⟨rfl, rfl⟩ := h
          rw [if_pos hshort]
          exact Cursor.Reads.pure _ _ _
      · next hlong =>
          simp only [Bool.and_eq_true, decide_eq_true_eq, beq_iff_eq] at h
          obtain ⟨⟨⟨hpos, -⟩, ho⟩, rfl⟩ := h
          have hbits := and_lowBits (Nat.not_lt.mp hlong)
          have hopen : o ≠ openLength := by
            rintro rfl
            rw [show openLength.toNat = 128 from rfl] at ho
            omega
          rw [List.length_cons] at hlen
          have height : os.length ≤ 8 := by omega
          have hfit : 256 ^ os.length * 0 + natOfOctets os < 2 ^ 64 := by
            have hlt := natOfOctets_lt os
            have hpow : 256 ^ os.length ≤ 256 ^ 8 := Nat.pow_le_pow_right (by decide) height
            omega
          have hread := bDecLongLen_reads ([o].reverse ++ past) rest os hfit
          rw [Nat.mul_zero, Nat.zero_add] at hread
          rw [if_neg hlong, if_neg hopen, show (o &&& 0x7F).toNat = os.length by omega,
            if_neg (by omega), List.length_cons,
            show bytesDecoded + (os.length + 1) = bytesDecoded + 1 + os.length by omega]
          exact hread.bind_pure fun len => (len, bytesDecoded + 1 + os.length)

theorem bDecLen_fails (past rest : List Octet) {len : List Octet} {n : ℕ} (h : isLengthOf n len)
    (hlen : 9 < len.length) (bytesDecoded : ℕ) :
    Cursor.Fails past (len ++ rest) (bDecLen bytesDecoded) := by
  cases len with
  | nil => cases h
  | cons o os =>
      rw [isLengthOf] at h
      show Cursor.Fails past ([o] ++ (os ++ rest)) _
      refine (AsnBuf.getByte_reads past _ o).bind_fails ?_
      split at h
      · simp only [Bool.and_eq_true, List.isEmpty_iff] at h
        obtain ⟨rfl, -⟩ := h
        simp at hlen
      · next hlong =>
          simp only [Bool.and_eq_true, decide_eq_true_eq, beq_iff_eq] at h
          obtain ⟨⟨⟨hpos, -⟩, ho⟩, -⟩ := h
          have hbits := and_lowBits (Nat.not_lt.mp hlong)
          have hopen : o ≠ openLength := by
            rintro rfl
            rw [show openLength.toNat = 128 from rfl] at ho
            omega
          rw [List.length_cons] at hlen
          have height : 8 < os.length := by omega
          rw [if_neg hlong, if_neg hopen, if_pos (by omega)]
          exact ⟨_, rfl⟩

/-- A length that is left open. -/
theorem bDecLen_openLength (past rest : List Octet) (bytesDecoded : ℕ) :
    Cursor.Reads past rest (bDecLen bytesDecoded) [openLength]
      (indefiniteLen, bytesDecoded + 1) := rfl

/-! ### What is recomputed -/

theorem bytesInTag_pos (tag : AsnTag) : 0 < bytesInTag tag := by
  unfold bytesInTag
  split_ifs <;> decide

end Esnacc
