import Esnacc.CLib.Int
import Esnacc.Ber.ConsString

/-!
BIT STRINGs in the C runtime library. The octets of a value are reached by a pointer, so there
is always something behind them; the encoder looks at the octet behind them when their bits are
a multiple of eight, and it writes to the value.
-/

namespace Esnacc.CLib

open BitString

/-- `bits` is the memory from the pointer on. -/
structure AsnBits where
  bitLen : ℤ
  bits : ℕ → Octet

namespace AsnBits

def octets (x : AsnBits) (n : ℕ) : List Octet := (List.range n).map x.bits

/-- A value whose octets have been copied to a new block. -/
def ofOctets (bitLen : ℤ) (octets : List Octet) : AsnBits := ⟨bitLen, fun i => octets.getD i 0⟩

end AsnBits

/-- The number of the bits in the last octet that are not used. -/
def unusedBits (bitLen : ℕ) : ℕ := if bitLen % 8 ≠ 0 then 8 - bitLen % 8 else 0

/-- The mask of the bits that are used. -/
def usedMask (bitLen : ℕ) : Octet := 0xFF#8 <<< unusedBits bitLen

def GenBuf.putSegRvs (b : GenBuf) (seg : List Octet) : GenBuf :=
  { b with octets := seg ++ b.octets }

/-- What `BEncAsnBitsContent` does behind the special case for a value of zero: the length of
the content, the buffer and the value afterwards. -/
def putBits (b : GenBuf) (x : AsnBits) : ℕ × GenBuf × AsnBits :=
  let bitLen := x.bitLen.toNat
  let byteLen := if bitLen = 0 then 0 else (bitLen - 1) / 8 + 1
  let x :=
    if bitLen ≠ 0 ∧ unusedBits bitLen ≠ 0 ∧ byteLen = 1 ∧ x.bits 0 ≠ 0 then
      let last := x.bits (byteLen - 1) &&& usedMask bitLen
      { x with bits := Function.update x.bits (byteLen - 1) last }
    else x
  let b := b.putSegRvs (x.octets byteLen)
  if (x.bits 0 ≠ 0 ∨ 1 < byteLen) ∧ unusedBits bitLen ≠ 7 then
    (byteLen + 1, b.putByteRvs (BitVec.ofNat 8 (unusedBits bitLen)), x)
  else (byteLen, b, x)

def bEncAsnBitsContent (b : GenBuf) (x : AsnBits) : ℕ × GenBuf × AsnBits :=
  let zero := (List.range (x.bitLen.toNat / 8 + 1)).all fun i => x.bits i = 0
  putBits b (if zero then { x with bitLen := 1 } else x)

/-- `BufCopy`. -/
def GenBuf.copy (b : GenBuf) (len : ℕ) : List Octet × GenBuf :=
  (b.octets.take len,
    ⟨b.octets.drop len, b.readError || decide (b.octets.length < len)⟩)

/-- `BDecAsnBitsContent` for a primitive encoding: the result, the new `*bytesDecoded` and the
buffer. -/
def bDecPrimAsnBits (b : GenBuf) (len bytesDecoded : ℕ) :
    Except LongJmp (AsnBits × ℕ × GenBuf) :=
  if len = indefiniteLen then .error ⟨-65⟩
  else
    let bytesDecoded := bytesDecoded + len
    let len : ℕ := (len + (2 ^ 64 - 1)) % 2 ^ 64
    let (byte, b) := b.getByte
    let bitLen := toInt32 ((len : ℤ) * 8 - byte.toNat)
    let (octets, b) := b.copy len
    if b.readError then .error ⟨-4⟩ else .ok (.ofOctets bitLen octets, bytesDecoded, b)

def asnBitsEquiv (b₁ b₂ : AsnBits) : Bool :=
  if b₁.bitLen = 0 ∧ b₂.bitLen = 0 then true
  else
    let octetsLessOne := ((b₁.bitLen - 1).tdiv 8).toNat
    let mask := usedMask b₁.bitLen.toNat
    b₁.bitLen = b₂.bitLen && b₁.octets octetsLessOne = b₂.octets octetsLessOne &&
      b₁.bits octetsLessOne &&& mask = b₂.bits octetsLessOne &&& mask

/-- What a BIT STRING is written and read back with: the decoder gets the content in front of
anything else. -/
structure RoundTrips (b : GenBuf) (x : AsnBits) : Prop where
  decoded : ∀ bytesDecoded, ∃ y,
    bDecPrimAsnBits (bEncAsnBitsContent b x).2.1 (bEncAsnBitsContent b x).1 bytesDecoded =
      .ok (y, bytesDecoded + (bEncAsnBitsContent b x).1, b) ∧
    y.bitLen = x.bitLen ∧ asnBitsEquiv x y
  unchanged : (bEncAsnBitsContent b x).2.2.bitLen = x.bitLen ∧
    asnBitsEquiv x (bEncAsnBitsContent b x).2.2
  first : ∃ content, (bEncAsnBitsContent b x).2.1.octets =
    BitVec.ofNat 8 (unusedBits x.bitLen.toNat) :: content

/-- The bit strings the encoder has no special case for. -/
def Plain (bits : ℕ → Octet) (n : ℕ) : Prop :=
  n % 8 ≠ 1 ∧ if n ≤ 8 then bits 0 &&& usedMask n ≠ 0 else ∃ i ≤ n / 8, bits i ≠ 0

/-! ### Encoding -/

theorem unusedBits_lt (n : ℕ) : unusedBits n < 8 := by
  rw [unusedBits]
  split <;> omega

theorem unusedBits_eq_seven {n : ℕ} : unusedBits n = 7 ↔ n % 8 = 1 := by
  rw [unusedBits]
  split <;> omega

theorem usedMask_idem (o : Octet) (n : ℕ) : o &&& usedMask n &&& usedMask n = o &&& usedMask n := by
  rw [BitVec.and_assoc, BitVec.and_self]

/-- The octets a bit string takes. -/
def byteLen (n : ℕ) : ℕ := if n = 0 then 0 else (n - 1) / 8 + 1

theorem octetsLessOne_eq {n : ℕ} (h : n ≠ 0) : (((n : ℤ) - 1).tdiv 8).toNat = (n - 1) / 8 := by
  rw [show ((n : ℤ) - 1) = ((n - 1 : ℕ) : ℤ) by omega, show (8 : ℤ) = ((8 : ℕ) : ℤ) from rfl,
    Int.tdiv_eq_ediv_of_nonneg (Int.natCast_nonneg _), ← Int.natCast_ediv, Int.toNat_natCast]

/-- The equivalence of two values of this length. -/
theorem asnBitsEquiv_iff (n : ℕ) (bits bits' : ℕ → Octet) :
    asnBitsEquiv ⟨n, bits⟩ ⟨n, bits'⟩ ↔ n = 0 ∨ (∀ i < (n - 1) / 8, bits i = bits' i) ∧
      bits ((n - 1) / 8) &&& usedMask n = bits' ((n - 1) / 8) &&& usedMask n := by
  by_cases hn : n = 0
  · simp [asnBitsEquiv, hn]
  · have hzero : ¬((n : ℤ) = 0 ∧ (n : ℤ) = 0) := by omega
    simp only [asnBitsEquiv, if_neg hzero, octetsLessOne_eq hn, Int.toNat_natCast,
      AsnBits.octets, Bool.and_eq_true, decide_eq_true_eq, List.map_inj_left, List.mem_range, hn,
      false_or, true_and]

/-- The octets after the first one has been padded. -/
def padded (bits : ℕ → Octet) (n : ℕ) : ℕ → Octet :=
  if n ≠ 0 ∧ unusedBits n ≠ 0 ∧ byteLen n = 1 ∧ bits 0 ≠ 0 then
    Function.update bits 0 (bits 0 &&& usedMask n)
  else bits

theorem putBits_eq (bits : ℕ → Octet) (n : ℕ) (b : GenBuf) :
    putBits b ⟨n, bits⟩ =
      if (padded bits n 0 ≠ 0 ∨ 1 < byteLen n) ∧ unusedBits n ≠ 7 then
        (byteLen n + 1, b.putSegRvs (BitVec.ofNat 8 (unusedBits n) ::
          AsnBits.octets ⟨n, padded bits n⟩ (byteLen n)), ⟨n, padded bits n⟩)
      else (byteLen n, b.putSegRvs (AsnBits.octets ⟨n, padded bits n⟩ (byteLen n)),
        ⟨n, padded bits n⟩) := by
  have hpad : (if n ≠ 0 ∧ unusedBits n ≠ 0 ∧ byteLen n = 1 ∧ bits 0 ≠ 0 then
      (⟨n, Function.update bits (byteLen n - 1) (bits (byteLen n - 1) &&& usedMask n)⟩ : AsnBits)
      else ⟨n, bits⟩) = ⟨n, padded bits n⟩ := by
    rw [padded]
    split
    · next hcond => rw [hcond.2.2.1]
    · rfl
  simp only [putBits, Int.toNat_natCast]
  rw [show (if n = 0 then 0 else (n - 1) / 8 + 1) = byteLen n from rfl, hpad]
  rfl

/-- What is looked at to find a value to be zero. -/
def looksZero (bits : ℕ → Octet) (n : ℕ) : Prop := ∀ i ≤ n / 8, bits i = 0

theorem bEnc_of_looksZero {bits : ℕ → Octet} {n : ℕ} (h : looksZero bits n) (b : GenBuf) :
    bEncAsnBitsContent b ⟨n, bits⟩ = (1, b.putSegRvs [0x00#8], ⟨1, bits⟩) := by
  have hzero : ((List.range (n / 8 + 1)).all fun i => bits i = 0) = true := by
    rw [List.all_eq_true]
    intro i hi
    rw [List.mem_range] at hi
    exact decide_eq_true (h i (by omega))
  have hfirst : bits 0 = 0 := h 0 (Nat.zero_le _)
  have hpad : padded bits 1 = bits := by
    rw [padded, if_neg (by simp [hfirst])]
  rw [bEncAsnBitsContent]
  simp only [Int.toNat_natCast, hzero, if_true]
  rw [show (⟨1, bits⟩ : AsnBits) = ⟨(1 : ℕ), bits⟩ from rfl, putBits_eq, hpad,
    if_neg (by rw [not_and_or]; exact .inr (by decide))]
  simp [byteLen, AsnBits.octets, List.range_one, hfirst]

theorem bEnc_of_not_looksZero {bits : ℕ → Octet} {n : ℕ} (h : ¬looksZero bits n) (b : GenBuf) :
    bEncAsnBitsContent b ⟨n, bits⟩ = putBits b ⟨n, bits⟩ := by
  have hzero : ((List.range (n / 8 + 1)).all fun i => bits i = 0) = false := by
    rw [Bool.eq_false_iff]
    intro hall
    refine h fun i hi => ?_
    rw [List.all_eq_true] at hall
    exact of_decide_eq_true (hall i (by rw [List.mem_range]; omega))
  rw [bEncAsnBitsContent]
  simp only [Int.toNat_natCast, hzero, Bool.false_eq_true, if_false]

/-! ### Decoding -/

theorem bDecPrim_cons (b : GenBuf) (hb : b.readError = false) (first : Octet) (os : List Octet)
    (hos : os.length < 2 ^ 32) (bytesDecoded : ℕ) :
    bDecPrimAsnBits (b.putSegRvs (first :: os)) (os.length + 1) bytesDecoded =
      .ok (.ofOctets (toInt32 ((os.length : ℤ) * 8 - first.toNat)) os,
        bytesDecoded + (os.length + 1), b) := by
  have hne : ¬os.length + 1 = indefiniteLen := by
    rw [indefiniteLen]
    omega
  have hlen : (os.length + 1 + (2 ^ 64 - 1)) % 2 ^ 64 = os.length := by omega
  obtain ⟨rest, readError⟩ := b
  subst hb
  have hcopy : (⟨os ++ rest, false⟩ : GenBuf).copy os.length = (os, ⟨rest, false⟩) := by
    have hlt : ¬(os ++ rest).length < os.length := by simp
    simp only [GenBuf.copy, List.take_left, List.drop_left, hlt, decide_false, Bool.or_false]
  simp only [bDecPrimAsnBits, if_neg hne, hlen, GenBuf.putSegRvs, List.cons_append,
    GenBuf.getByte, hcopy, Bool.false_eq_true, if_false]

/-! ### Round trips -/

theorem octets_ofOctets (bitLen : ℤ) (x : AsnBits) (k i : ℕ) (hi : i < k) :
    (AsnBits.ofOctets bitLen (x.octets k)).bits i = x.bits i := by
  simp [AsnBits.ofOctets, AsnBits.octets, List.getD, hi]

theorem length_octets (x : AsnBits) (n : ℕ) : (x.octets n).length = n := by
  simp [AsnBits.octets]

/-- The used bits are not padded. -/
theorem padded_and_usedMask {bits : ℕ → Octet} {n : ℕ} (i : ℕ) :
    (i ≠ 0 ∨ byteLen n ≠ 1 → padded bits n i = bits i) ∧
      (n ≤ 8 → padded bits n i &&& usedMask n = bits i &&& usedMask n) := by
  rw [padded]
  split
  · next hcond =>
      refine ⟨fun h => ?_, fun hle => ?_⟩
      · rcases h with h | h
        · exact Function.update_of_ne h _ _
        · exact absurd hcond.2.2.1 h
      · by_cases hi : i = 0
        · rw [hi, Function.update_self, usedMask_idem]
        · rw [Function.update_of_ne hi]
  · exact ⟨fun _ => rfl, fun _ => rfl⟩

theorem byteLen_eq_one {n : ℕ} : byteLen n = 1 ↔ 0 < n ∧ n ≤ 8 := by
  rw [byteLen]
  split <;> omega

theorem asnBitsEquiv_padded (bits : ℕ → Octet) (n : ℕ) :
    asnBitsEquiv ⟨n, bits⟩ ⟨n, padded bits n⟩ := by
  rw [asnBitsEquiv_iff]
  by_cases hle : n ≤ 8
  · refine .inr ⟨fun i hi => ?_, ((padded_and_usedMask _).2 hle).symm⟩
    omega
  · have hne : byteLen n ≠ 1 := by
      rw [Ne, byteLen_eq_one]
      omega
    have hsame (i : ℕ) : padded bits n i = bits i := (padded_and_usedMask i).1 (.inr hne)
    exact .inr ⟨fun i _ => (hsame i).symm, by rw [hsame]⟩

/-- Whether the octet of the unused bits is written. -/
theorem writes_unused_iff {bits : ℕ → Octet} {n : ℕ} :
    Plain bits n ↔ ¬looksZero bits n ∧
      (padded bits n 0 ≠ 0 ∨ 1 < byteLen n) ∧ unusedBits n ≠ 7 := by
  rw [Plain, Ne, ← unusedBits_eq_seven]
  by_cases hle : n ≤ 8
  · have hbyte : ¬1 < byteLen n := by
      rw [byteLen]
      split <;> omega
    rw [if_pos hle]
    have hpad : padded bits n 0 ≠ 0 ∧ ¬looksZero bits n ↔ bits 0 &&& usedMask n ≠ 0 := by
      by_cases hfull : unusedBits n = 0
      · have hmask (o : Octet) : o &&& usedMask n = o := by
          rw [usedMask, hfull]
          revert o
          decide
        have hcond : padded bits n = bits := by
          rw [padded, if_neg (by simp [hfull])]
        rw [hmask, hcond]
        refine ⟨fun h => h.1, fun h => ⟨h, fun hzero => h (hzero 0 (Nat.zero_le _))⟩⟩
      · have hpos : 0 < n := by
          rcases Nat.eq_zero_or_pos n with rfl | hpos
          · exact absurd rfl hfull
          · exact hpos
        by_cases hfirst : bits 0 = 0
        · have hcond : padded bits n = bits := by
            rw [padded, if_neg (by simp [hfirst])]
          simp [hcond, hfirst]
        · have hcond : padded bits n 0 = bits 0 &&& usedMask n := by
            rw [padded, if_pos ⟨hpos.ne', hfull, byteLen_eq_one.2 ⟨hpos, hle⟩, hfirst⟩,
              Function.update_self]
          rw [hcond]
          exact ⟨fun h => h.1, fun h => ⟨h, fun hzero => hfirst (hzero 0 (Nat.zero_le _))⟩⟩
    rw [← hpad]
    tauto
  · have hbyte : 1 < byteLen n := by
      rw [byteLen]
      split <;> omega
    rw [if_neg hle, looksZero]
    push Not
    tauto

/-- What looks like zero is read as an empty bit string and left as one of length 1. -/
theorem not_looksZero_of_roundTrips {bits : ℕ → Octet} {n : ℕ} {b : GenBuf}
    (hb : b.readError = false) (h : RoundTrips b ⟨n, bits⟩) : ¬looksZero bits n := by
  intro hzero
  obtain ⟨y, hy, hlen, -⟩ := h.decoded 0
  have hunchanged := h.unchanged.1
  rw [bEnc_of_looksZero hzero] at hy hunchanged
  have hdec := bDecPrim_cons b hb 0x00#8 [] (by decide) 0
  rw [List.length_nil, Nat.zero_add] at hdec
  rw [hdec] at hy
  cases hy
  change toInt32 0 = (n : ℤ) at hlen
  rw [toInt32_eq (by decide) (by decide)] at hlen
  change (1 : ℤ) = n at hunchanged
  omega

/-- Without the octet of the unused bits, the first octet of the value is read in its place. -/
theorem writes_of_roundTrips {bits : ℕ → Octet} {n : ℕ} (hn : n < 2 ^ 31) {b : GenBuf}
    (hb : b.readError = false) (hzero : ¬looksZero bits n) (h : RoundTrips b ⟨n, bits⟩) :
    (padded bits n 0 ≠ 0 ∨ 1 < byteLen n) ∧ unusedBits n ≠ 7 := by
  by_contra hnot
  have hpos : n ≠ 0 := by
    rintro rfl
    refine hzero ?_
    have hfirst : bits 0 = 0 := by
      by_contra hfirst
      refine hnot ⟨.inl ?_, by decide⟩
      rwa [padded, if_neg (by simp)]
    intro i hi
    rwa [show i = 0 by omega]
  -- the length that is read is that of the other octets, less the bits of the first one
  have hbytes : byteLen n = (n - 1) / 8 + 1 := if_neg hpos
  obtain ⟨y, hy, hlen, -⟩ := h.decoded 0
  rw [bEnc_of_not_looksZero hzero, putBits_eq, if_neg hnot] at hy
  simp only [hbytes, AsnBits.octets, List.range_succ_eq_map, List.map_cons] at hy
  have hdec := bDecPrim_cons b hb (padded bits n 0)
    (((List.range ((n - 1) / 8)).map Nat.succ).map (padded bits n))
    (by simp only [List.length_map, List.length_range]; omega) 0
  simp only [List.length_map, List.length_range] at hdec
  rw [hdec] at hy
  cases hy
  have hlt := (padded bits n 0).isLt
  simp only [AsnBits.ofOctets] at hlen
  rw [toInt32_eq (by push_cast; omega) (by push_cast; omega)] at hlen
  push_cast at hlen
  omega

/-- With that octet, the bits come back. -/
theorem roundTrips_of_writes {bits : ℕ → Octet} {n : ℕ} (hn : n < 2 ^ 31) {b : GenBuf}
    (hb : b.readError = false) (hzero : ¬looksZero bits n)
    (hwrites : (padded bits n 0 ≠ 0 ∨ 1 < byteLen n) ∧ unusedBits n ≠ 7) :
    RoundTrips b ⟨n, bits⟩ := by
  have hbytes : (n : ℤ) = byteLen n * 8 - unusedBits n := by
    rw [byteLen, unusedBits]
    split <;> split <;> omega
  have hle : byteLen n ≤ n := by
    rw [byteLen]
    split <;> omega
  have henc := bEnc_of_not_looksZero hzero b
  rw [putBits_eq, if_pos hwrites] at henc
  constructor
  case decoded =>
    intro bytesDecoded
    have hdec := bDecPrim_cons b hb (BitVec.ofNat 8 (unusedBits n))
      (AsnBits.octets ⟨n, padded bits n⟩ (byteLen n)) (by rw [length_octets]; omega) bytesDecoded
    rw [length_octets] at hdec
    rw [henc]
    have hlt := unusedBits_lt n
    have hnum : toInt32 ((byteLen n : ℤ) * 8 -
        ((BitVec.ofNat 8 (unusedBits n)).toNat : ℤ)) = n := by
      rw [BitVec.toNat_ofNat, Nat.mod_eq_of_lt (by omega), ← hbytes]
      exact toInt32_eq (by omega) (by omega)
    refine ⟨_, hdec, hnum, ?_⟩
    rw [hnum, show AsnBits.ofOctets n (AsnBits.octets ⟨n, padded bits n⟩ (byteLen n)) =
      ⟨n, _⟩ from rfl, asnBitsEquiv_iff]
    by_cases hpos : n = 0
    · exact .inl hpos
    · have hlast : byteLen n = (n - 1) / 8 + 1 := if_neg hpos
      have hsame (i : ℕ) (hi : i < byteLen n) := octets_ofOctets n ⟨n, padded bits n⟩ _ i hi
      have hpadded := (asnBitsEquiv_iff n bits (padded bits n)).1 (asnBitsEquiv_padded bits n)
      obtain ⟨hfront, hback⟩ := hpadded.resolve_left hpos
      refine .inr ⟨fun i hi => ?_, ?_⟩
      · exact (hfront i hi).trans (hsame i (by omega)).symm
      · exact hback.trans (congrArg (· &&& usedMask n) (hsame _ (by omega)).symm)
  case unchanged =>
    rw [henc]
    exact ⟨rfl, asnBitsEquiv_padded bits n⟩
  case first =>
    rw [henc]
    exact ⟨_, rfl⟩

/-- A bit string is written and read back as long as it is none of the special cases. -/
theorem bits_roundTrips_iff (bits : ℕ → Octet) {n : ℕ} (hn : n < 2 ^ 31) {b : GenBuf}
    (hb : b.readError = false) : RoundTrips b ⟨n, bits⟩ ↔ Plain bits n := by
  rw [writes_unused_iff]
  constructor
  · intro h
    have hzero := not_looksZero_of_roundTrips hb h
    exact ⟨hzero, writes_of_roundTrips hn hb hzero h⟩
  · rintro ⟨hzero, hwrites⟩
    exact roundTrips_of_writes hn hb hzero hwrites

end Esnacc.CLib
