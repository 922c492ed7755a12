import Esnacc.Lib.BigEndian

/-!
The contents of an INTEGER in the C runtime library. `AsnInt` and `UAsnInt` have
32 bits, `long` and `unsigned long` have 64. A buffer is written from its end, so
what is written next stands in front of what has been written.
-/

namespace Esnacc.CLib

open BitString

/-- What a buffer holds from its position on, and whether a read went past the end. -/
structure GenBuf where
  octets : List Octet
  readError : Bool
  deriving DecidableEq, Repr

namespace GenBuf

def putByteRvs (b : GenBuf) (byte : Octet) : GenBuf := { b with octets := byte :: b.octets }

def getByte (b : GenBuf) : Octet × GenBuf :=
  match b.octets with
  | [] => (0, { b with readError := true })
  | byte :: rest => (byte, { b with octets := rest })

end GenBuf

/-- The code a decoder hands to `longjmp`. -/
structure LongJmp where
  code : ℤ
  deriving DecidableEq, Repr

/-- `INT_MASK`, as it is assigned to an `unsigned long`. -/
def intMask : BitVec 64 := 0x7f80#64 <<< 16

/-- The loop that shortens a content octet by octet. -/
def contentLen (drops : BitVec 64 → Bool) : ℕ → BitVec 64 → ℕ
  | len + 2, mask => if drops mask then contentLen drops (len + 1) (mask >>> 8) else len + 2
  | len, _ => len

/-- Writes the low octet of a word and shifts the word, so many times. -/
def putLowOctets (shift : BitVec 64 → BitVec 64) : ℕ → BitVec 64 → GenBuf → GenBuf
  | 0, _, b => b
  | i + 1, dataCpy, b =>
      putLowOctets shift i (shift dataCpy) (b.putByteRvs (dataCpy.setWidth 8))

def bEncAsnIntContent (b : GenBuf) (data : BitVec 32) : ℕ × GenBuf :=
  let dataCpy := data.signExtend 64
  let len :=
    if dataCpy.slt 0 then contentLen (fun mask => dataCpy &&& mask = mask) 4 intMask
    else contentLen (fun mask => dataCpy &&& mask = 0) 4 intMask
  (len, putLowOctets (fun d => d.sshiftRight 8) len dataCpy b)

/-- The loop that takes in the octets behind the first one. -/
def getLowOctets : ℕ → BitVec 64 → GenBuf → BitVec 64 × GenBuf
  | 0, retVal, b => (retVal, b)
  | i + 1, retVal, b =>
      getLowOctets i (retVal <<< 8 ||| b.getByte.1.setWidth 64) b.getByte.2

/-- What the decoder of signed numbers makes of the first octet: the sign is put into one
octet in front of it, not into all of the word. -/
def signedStart (byte : BitVec 64) : BitVec 64 :=
  if byte &&& 0x80#64 ≠ 0 then (0x80#64 <<< 8) ||| byte else byte

/-- The result, the new `*bytesDecoded` and the buffer. -/
def bDecAsnIntContent (b : GenBuf) (len bytesDecoded : ℕ) :
    Except LongJmp (BitVec 32 × ℕ × GenBuf) :=
  if 4 < len then .error ⟨-7⟩
  else
    let byte := b.getByte.1.setWidth 64
    let (retVal, b) := getLowOctets (len - 1) (signedStart byte) b.getByte.2
    if b.readError then .error ⟨-8⟩ else .ok (retVal.setWidth 32, bytesDecoded + len, b)

def bEncUAsnIntContent (b : GenBuf) (data : BitVec 32) : ℕ × GenBuf :=
  let dataCpy := data.setWidth 64
  if dataCpy.slt 0 then
    (5, (putLowOctets (fun d => d >>> 8) 4 dataCpy b).putByteRvs 0)
  else
    let len := contentLen (fun mask => dataCpy &&& mask = 0) 4 intMask
    (len, putLowOctets (fun d => d >>> 8) len dataCpy b)

def bDecUAsnIntContent (b : GenBuf) (len bytesDecoded : ℕ) :
    Except LongJmp (BitVec 32 × ℕ × GenBuf) :=
  let retVal := b.getByte.1.setWidth 64
  if 5 < len then .error ⟨-9⟩
  else if retVal &&& 0x80 ≠ 0 then .error ⟨-10⟩
  else if len = 5 ∧ retVal ≠ 0 then .error ⟨-11⟩
  else
    let (retVal, b) := getLowOctets (len - 1) retVal b.getByte.2
    if b.readError then .error ⟨-12⟩ else .ok (retVal.setWidth 32, bytesDecoded + len, b)

/-! ### Writing -/

/-- Writing follows `lowOctets` whenever the shift drops the low octet of the number
that is written. -/
theorem putLowOctets_eq {shift : BitVec 64 → BitVec 64} {v : BitVec 64 → ℤ}
    (hshift : ∀ d, v (shift d) = v d / 256)
    (hlow : ∀ d, d.setWidth 8 = BitVec.ofInt 8 (v d)) (n : ℕ) (d : BitVec 64) (b : GenBuf) :
    putLowOctets shift n d b = { b with octets := lowOctets n (v d) ++ b.octets } := by
  induction n generalizing d b with
  | zero => rfl
  | succ n ih =>
      rw [putLowOctets, ih, hshift, hlow, lowOctets, GenBuf.putByteRvs, List.append_assoc]
      rfl

theorem putLowOctets_signed (n : ℕ) (d : BitVec 64) (b : GenBuf) :
    putLowOctets (fun d => d.sshiftRight 8) n d b =
      { b with octets := lowOctets n d.toInt ++ b.octets } := by
  apply putLowOctets_eq (v := BitVec.toInt)
  · intro d
    rw [BitVec.toInt_sshiftRight, Int.shiftRight_eq_div_pow]
    rfl
  · intro d
    apply BitVec.eq_of_toNat_eq
    rw [BitVec.toNat_setWidth, BitVec.toNat_ofInt, BitVec.toInt_eq_toNat_cond]
    have hlt := d.isLt
    split <;> omega

theorem putLowOctets_unsigned (n : ℕ) (d : BitVec 64) (b : GenBuf) :
    putLowOctets (fun d => d >>> 8) n d b =
      { b with octets := lowOctets n d.toNat ++ b.octets } := by
  apply putLowOctets_eq (v := fun d => (d.toNat : ℤ))
  · intro d
    rw [BitVec.toNat_ushiftRight, Nat.shiftRight_eq_div_pow]
    omega
  · intro d
    apply BitVec.eq_of_toNat_eq
    rw [BitVec.toNat_setWidth, BitVec.toNat_ofInt]
    omega

theorem and_shifted_octet (n k : ℕ) : n &&& (255 <<< k) = (n / 2 ^ k % 256) <<< k := by
  rw [← Nat.and_two_pow_sub_one_eq_mod _ 8, ← Nat.shiftRight_eq_div_pow]
  apply Nat.eq_of_testBit_eq
  intro i
  simp only [Nat.testBit_and, Nat.testBit_shiftLeft, Nat.testBit_shiftRight]
  by_cases h : k ≤ i
  · simp [h]
  · simp [h]

/-- The nine bits from bit `k` on are looked at without the lowest of them. -/
theorem and_mask {d mask : BitVec 64} {k : ℕ} (hmask : mask.toNat = 255 <<< k) :
    (d &&& mask).toNat = d.toNat / 2 ^ k % 256 * 2 ^ k := by
  rw [BitVec.toNat_and, hmask, and_shifted_octet, Nat.shiftLeft_eq]

theorem and_mask_eq_zero {d mask : BitVec 64} {k : ℕ} (hmask : mask.toNat = 255 <<< k) :
    d &&& mask = 0 ↔ d.toNat / 2 ^ k % 256 = 0 := by
  rw [← BitVec.toNat_inj, and_mask hmask]
  simp

theorem and_mask_eq_mask {d mask : BitVec 64} {k : ℕ} (hmask : mask.toNat = 255 <<< k) :
    d &&& mask = mask ↔ d.toNat / 2 ^ k % 256 = 255 := by
  have hpos : 0 < 2 ^ k := by positivity
  rw [← BitVec.toNat_inj, and_mask hmask, hmask, Nat.shiftLeft_eq,
    Nat.mul_left_inj (by omega)]

/-- The length by the three masks the loop comes to. -/
theorem contentLen_eq (drops : BitVec 64 → Bool) :
    contentLen drops 4 intMask =
      if drops 0x7f800000 then if drops 0x7f8000 then if drops 0x7f80 then 1 else 2 else 3
      else 4 := rfl

/-- The length of the content of a number that is not negative. -/
theorem contentLen_nonneg {d : BitVec 64} (h : d.toNat < 2 ^ 31) :
    contentLen (fun mask => d &&& mask = 0) 4 intMask =
      if d.toNat < 2 ^ 7 then 1 else if d.toNat < 2 ^ 15 then 2
      else if d.toNat < 2 ^ 23 then 3 else 4 := by
  have h₁ := @and_mask_eq_zero d 0x7f800000 23 rfl
  have h₂ := @and_mask_eq_zero d 0x7f8000 15 rfl
  have h₃ := @and_mask_eq_zero d 0x7f80 7 rfl
  rw [contentLen_eq]
  simp only [decide_eq_true_eq, h₁, h₂, h₃]
  split_ifs <;> omega

/-- The length of the content of a negative number, `d` being its word. -/
theorem contentLen_neg {d : BitVec 64} (h : 2 ^ 64 - 2 ^ 31 ≤ d.toNat) :
    contentLen (fun mask => d &&& mask = mask) 4 intMask =
      if 2 ^ 64 - 2 ^ 7 ≤ d.toNat then 1 else if 2 ^ 64 - 2 ^ 15 ≤ d.toNat then 2
      else if 2 ^ 64 - 2 ^ 23 ≤ d.toNat then 3 else 4 := by
  have hlt := d.isLt
  have h₁ := @and_mask_eq_mask d 0x7f800000 23 rfl
  have h₂ := @and_mask_eq_mask d 0x7f8000 15 rfl
  have h₃ := @and_mask_eq_mask d 0x7f80 7 rfl
  rw [contentLen_eq]
  simp only [decide_eq_true_eq, h₁, h₂, h₃]
  split_ifs <;> omega

/-- The number of octets a number of 32 bits takes in two's complement. -/
def octetCount (v : ℤ) : ℕ :=
  if -2 ^ 7 ≤ v ∧ v < 2 ^ 7 then 1 else if -2 ^ 15 ≤ v ∧ v < 2 ^ 15 then 2
  else if -2 ^ 23 ≤ v ∧ v < 2 ^ 23 then 3 else 4

/-- So many octets hold the number, and one less does not. -/
theorem octetCount_spec {v : ℤ} (hge : -2 ^ 31 ≤ v) (hlt : v < 2 ^ 31) :
    ∃ n, octetCount v = n + 1 ∧ n ≤ 3 ∧ -(256 ^ (n + 1)) ≤ 2 * v ∧ 2 * v < 256 ^ (n + 1) ∧
      (0 < n → 2 * v < -(256 ^ n) ∨ 256 ^ n ≤ 2 * v) := by
  rw [octetCount]
  split_ifs
  · exact ⟨0, by norm_num; omega⟩
  · exact ⟨1, by norm_num; omega⟩
  · exact ⟨2, by norm_num; omega⟩
  · exact ⟨3, by norm_num; omega⟩

/-- The content of a number of 32 bits. -/
def contentOctets (v : ℤ) : List Octet := lowOctets (octetCount v) v

theorem intOfOctets_contentOctets {v : ℤ} (hge : -2 ^ 31 ≤ v) (hlt : v < 2 ^ 31) :
    intOfOctets (contentOctets v) = v := by
  obtain ⟨n, hn, -, hlow, hhigh, -⟩ := octetCount_spec hge hlt
  rw [contentOctets, hn]
  exact intOfOctets_lowOctets hlow hhigh

theorem shortest_contentOctets {v : ℤ} (hge : -2 ^ 31 ≤ v) (hlt : v < 2 ^ 31) :
    Shortest (contentOctets v) := by
  obtain ⟨n, hn, -, -, -, hlarge⟩ := octetCount_spec hge hlt
  apply shortest_of_large (n := n)
  · rw [contentOctets, length_lowOctets, hn]
  · rwa [intOfOctets_contentOctets hge hlt]

theorem bEncAsnIntContent_eq (b : GenBuf) (x : BitVec 32) :
    bEncAsnIntContent b x = ((contentOctets x.toInt).length,
      { b with octets := contentOctets x.toInt ++ b.octets }) := by
  have hge := x.le_toInt
  have hlt := x.toInt_lt
  have hext : (x.signExtend 64).toInt = x.toInt := BitVec.toInt_signExtend_of_le (by decide)
  have hcond := BitVec.toInt_eq_toNat_cond (x.signExtend 64)
  have hword := (x.signExtend 64).isLt
  rw [hext] at hcond
  have hlen : (bEncAsnIntContent b x).1 = octetCount x.toInt := by
    simp only [bEncAsnIntContent, BitVec.slt_iff_toInt_lt, hext]
    split_ifs with hneg
    · have hneg' : x.toInt < 0 := by simpa using hneg
      rw [contentLen_neg (by split at hcond <;> omega), octetCount]
      split at hcond <;> split_ifs <;> omega
    · have hpos : 0 ≤ x.toInt := by simpa using hneg
      rw [contentLen_nonneg (by split at hcond <;> omega), octetCount]
      split at hcond <;> split_ifs <;> omega
  have hbuf : (bEncAsnIntContent b x).2 =
      putLowOctets (fun d => d.sshiftRight 8) (bEncAsnIntContent b x).1 (x.signExtend 64) b := rfl
  rw [hlen, putLowOctets_signed, hext] at hbuf
  rw [contentOctets, length_lowOctets, ← hbuf, ← hlen]

theorem not_slt_zero_setWidth (u : BitVec 32) : (u.setWidth 64).slt 0 = false := by
  have hlt := u.isLt
  rw [BitVec.slt_eq_decide, BitVec.toInt_setWidth, decide_eq_false_iff_not,
    Int.bmod_eq_of_le (by omega) (by omega)]
  simp

/-- Below `2 ^ 31` an unsigned number is written as the signed one is. -/
theorem bEncUAsnIntContent_eq (b : GenBuf) {u : BitVec 32} (h : u.toNat < 2 ^ 31) :
    bEncUAsnIntContent b u = ((contentOctets u.toNat).length,
      { b with octets := contentOctets u.toNat ++ b.octets }) := by
  have hword : (u.setWidth 64).toNat = u.toNat := by
    rw [BitVec.toNat_setWidth]
    omega
  have hlen : contentLen (fun mask => u.setWidth 64 &&& mask = 0) 4 intMask =
      octetCount u.toNat := by
    rw [contentLen_nonneg (by omega), hword, octetCount]
    split_ifs <;> omega
  simp only [bEncUAsnIntContent, not_slt_zero_setWidth, hlen, putLowOctets_unsigned, hword,
    contentOctets, length_lowOctets]
  rfl

theorem contentLen_le (drops : BitVec 64 → Bool) : contentLen drops 4 intMask ≤ 4 := by
  rw [contentLen_eq]
  split_ifs <;> omega

/-- The branch for numbers with the high bit set is never taken. -/
theorem fst_bEncUAsnIntContent_le (b : GenBuf) (u : BitVec 32) :
    (bEncUAsnIntContent b u).1 ≤ 4 := by
  simp only [bEncUAsnIntContent, not_slt_zero_setWidth, Bool.false_eq_true, if_false]
  exact contentLen_le _

/-! ### Reading -/

/-- The octets of the loop, taken into a word. -/
def shiftIn (r : BitVec 64) (os : List Octet) : BitVec 64 :=
  os.foldl (fun (r : BitVec 64) o => r <<< 8 ||| o.setWidth 64) r

theorem getLowOctets_append (os : List Octet) (retVal : BitVec 64) (b : GenBuf) :
    getLowOctets os.length retVal { b with octets := os ++ b.octets } =
      (shiftIn retVal os, b) := by
  induction os generalizing retVal with
  | nil => rfl
  | cons o os ih => exact ih (retVal <<< 8 ||| o.setWidth 64)

theorem toNat_signedStart (o : Octet) :
    (signedStart (o.setWidth 64)).toNat = (if o.msb then 2 ^ 15 else 0) + o.toNat := by
  revert o
  decide

theorem and_highBit_setWidth (o : Octet) : o.setWidth 64 &&& 0x80 ≠ 0 ↔ o.msb = true := by
  revert o
  decide

/-- The low half of a word that has taken in octets. -/
theorem toNat_setWidth_shiftIn (r : BitVec 64) (os : List Octet) :
    ((shiftIn r os).setWidth 32).toNat =
      (r.toNat * 256 ^ os.length + natOfOctets os) % 2 ^ 32 := by
  rw [BitVec.toNat_setWidth, shiftIn, toNat_foldl_shiftLeft_or, Nat.mod_mod_of_dvd _ (by norm_num)]

theorem bDecAsnIntContent_cons {o : Octet} {os : List Octet} {b : GenBuf}
    (hlen : os.length ≤ 3) (hb : b.readError = false) (bytesDecoded : ℕ) :
    bDecAsnIntContent { b with octets := o :: os ++ b.octets } (o :: os).length bytesDecoded =
      .ok ((shiftIn (signedStart (o.setWidth 64)) os).setWidth 32,
        bytesDecoded + (o :: os).length, b) := by
  have hget := getLowOctets_append os (signedStart (o.setWidth 64)) b
  rw [bDecAsnIntContent, if_neg (by rw [List.length_cons]; omega)]
  simp only [List.cons_append, GenBuf.getByte, List.length_cons, Nat.add_sub_cancel]
  rw [hget]
  simp [hb]

theorem bDecUAsnIntContent_cons {o : Octet} {os : List Octet} {b : GenBuf}
    (hlen : os.length ≤ 3) (ho : o.msb = false) (hb : b.readError = false)
    (bytesDecoded : ℕ) :
    bDecUAsnIntContent { b with octets := o :: os ++ b.octets } (o :: os).length bytesDecoded =
      .ok ((shiftIn (o.setWidth 64) os).setWidth 32,
        bytesDecoded + (o :: os).length, b) := by
  have hget := getLowOctets_append os (o.setWidth 64) b
  have hlow : ¬ o.setWidth 64 &&& 0x80 ≠ 0 := by
    rw [and_highBit_setWidth, ho]
    decide
  rw [bDecUAsnIntContent, if_neg (by rw [List.length_cons]; omega)]
  simp only [List.cons_append, GenBuf.getByte, List.length_cons, Nat.add_sub_cancel]
  rw [if_neg hlow, if_neg (by omega), hget]
  simp [hb]

/-! ### What is claimed of a value -/

/-- The content is the shortest that denotes the value, and the decoder returns the
value and stands where the encoder started. -/
def SignedRoundTrips (x : BitVec 32) : Prop :=
  ∀ (b : GenBuf) (bytesDecoded : ℕ), b.readError = false →
    ∃ content, bEncAsnIntContent b x =
        (content.length, { b with octets := content ++ b.octets }) ∧
      Shortest content ∧ intOfOctets content = x.toInt ∧
      bDecAsnIntContent (bEncAsnIntContent b x).2 content.length bytesDecoded =
        .ok (x, bytesDecoded + content.length, b)

/-- The same for an unsigned value, whose content has to denote it as a number that is
not negative. -/
def UnsignedRoundTrips (u : BitVec 32) : Prop :=
  ∀ (b : GenBuf) (bytesDecoded : ℕ), b.readError = false →
    ∃ content, bEncUAsnIntContent b u =
        (content.length, { b with octets := content ++ b.octets }) ∧
      Shortest content ∧ intOfOctets content = u.toNat ∧
      bDecUAsnIntContent (bEncUAsnIntContent b u).2 content.length bytesDecoded =
        .ok (u, bytesDecoded + content.length, b)

theorem length_contentOctets_le (v : ℤ) : (contentOctets v).length ≤ 4 := by
  rw [contentOctets, length_lowOctets, octetCount]
  split_ifs <;> omega

theorem exists_contentOctets_cons {v : ℤ} (hge : -2 ^ 31 ≤ v) (hlt : v < 2 ^ 31) :
    ∃ o os, contentOctets v = o :: os ∧ os.length ≤ 3 := by
  have hne := (shortest_contentOctets hge hlt).1
  have hle := length_contentOctets_le v
  cases h : contentOctets v with
  | nil => exact absurd h hne
  | cons o os =>
      rw [h, List.length_cons] at hle
      exact ⟨o, os, rfl, by omega⟩

/-- Octets that denote a number that is not negative are taken in as they are. -/
theorem setWidth_shiftIn_of_nonneg {r : BitVec 64} {o : Octet} {os : List Octet} {u : BitVec 32}
    (hr : r.toNat = o.toNat) (hvalue : (natOfOctets (o :: os) : ℤ) = u.toNat) :
    (shiftIn r os).setWidth 32 = u := by
  have hlt := u.isLt
  apply BitVec.eq_of_toNat_eq
  rw [toNat_setWidth_shiftIn, hr, ← natOfOctets_cons]
  omega

/-- The sign that is put in front of the content stays outside of the low 32 bits only
when the content has four octets. -/
theorem setWidth_shiftIn_signedStart_iff {o : Octet} {os : List Octet} {x : BitVec 32}
    (hlen : os.length ≤ 3) (hvalue : intOfOctets (o :: os) = x.toInt) :
    (shiftIn (signedStart (o.setWidth 64)) os).setWidth 32 = x ↔
      0 ≤ x.toInt ∨ os.length = 3 := by
  have hcond := x.toInt_eq_toNat_cond
  have hword := x.isLt
  have hstart := toNat_signedStart o
  have hsign : signBit (o :: os) = o.msb := rfl
  cases hs : o.msb with
  | false =>
      have hnat := hvalue
      rw [hs] at hsign hstart
      rw [intOfOctets_of_nonneg hsign] at hnat
      rw [if_neg (by decide), Nat.zero_add] at hstart
      refine iff_of_true ?_ (.inl (by omega))
      apply setWidth_shiftIn_of_nonneg hstart
      split at hcond <;> omega
  | true =>
      have hnat := hvalue
      rw [hs] at hsign hstart
      have hlarge := le_natOfOctets_of_neg hsign
      have hsmall := natOfOctets_lt (o :: os)
      rw [intOfOctets_of_neg hsign] at hnat
      rw [if_pos rfl] at hstart
      have hcons := natOfOctets_cons o os
      have hresult := toNat_setWidth_shiftIn (signedStart (o.setWidth 64)) os
      rw [hstart, Nat.add_mul, Nat.add_assoc, ← hcons] at hresult
      rw [← BitVec.toNat_inj, hresult]
      rw [List.length_cons] at hnat hlarge hsmall
      generalize natOfOctets (o :: os) = n at *
      generalize os.length = k at *
      interval_cases k <;> norm_num at * <;> split at hcond <;> omega

/-- Every signed value that is not negative makes the round trip, and of the negative
ones those that take four octets. -/
theorem signedRoundTrips_iff (x : BitVec 32) :
    SignedRoundTrips x ↔ 0 ≤ x.toInt ∨ x.toInt < -2 ^ 23 := by
  have hge := x.le_toInt
  have hlt := x.toInt_lt
  obtain ⟨o, os, hcontent, hlen⟩ := exists_contentOctets_cons hge hlt
  have hvalue := intOfOctets_contentOctets hge hlt
  have hshortest := shortest_contentOctets hge hlt
  have hcount : os.length + 1 = octetCount x.toInt := by
    rw [← List.length_cons (a := o), ← hcontent, contentOctets, length_lowOctets]
  have hlong : 0 ≤ x.toInt ∨ os.length = 3 ↔ 0 ≤ x.toInt ∨ x.toInt < -2 ^ 23 := by
    rw [octetCount] at hcount
    split_ifs at hcount <;> omega
  have hdec := setWidth_shiftIn_signedStart_iff hlen (hcontent ▸ hvalue)
  rw [← hlong, ← hdec]
  constructor
  · intro h
    obtain ⟨content, henc, -, -, hd⟩ := h ⟨[], false⟩ 0 rfl
    have hsame : contentOctets x.toInt = content := by
      rw [bEncAsnIntContent_eq] at henc
      simpa using congrArg (fun r => r.2.octets) henc
    rw [bEncAsnIntContent_eq, ← hsame, hcontent, bDecAsnIntContent_cons hlen rfl] at hd
    exact congrArg Prod.fst (Except.ok.inj hd)
  · intro hread b bytesDecoded hb
    refine ⟨contentOctets x.toInt, bEncAsnIntContent_eq b x, hshortest, hvalue, ?_⟩
    rw [bEncAsnIntContent_eq, hcontent, bDecAsnIntContent_cons hlen hb, hread]

/-- The unsigned values that make the round trip are those a signed value can have. -/
theorem unsignedRoundTrips_iff (u : BitVec 32) : UnsignedRoundTrips u ↔ u.toNat < 2 ^ 31 := by
  constructor
  · intro h
    obtain ⟨content, henc, -, hvalue, -⟩ := h ⟨[], false⟩ 0 rfl
    have hlen : content.length ≤ 4 := by
      have hle := fst_bEncUAsnIntContent_le ⟨[], false⟩ u
      rwa [henc] at hle
    have hlt := intOfOctets_lt content
    have hpow : (256 : ℤ) ^ content.length ≤ 256 ^ 4 := pow_le_pow_right₀ (by norm_num) hlen
    rw [hvalue] at hlt
    norm_num at hpow
    omega
  · intro hu b bytesDecoded hb
    have hge : -2 ^ 31 ≤ (u.toNat : ℤ) := by omega
    have hlt : (u.toNat : ℤ) < 2 ^ 31 := by omega
    obtain ⟨o, os, hcontent, hlen⟩ := exists_contentOctets_cons hge hlt
    have hvalue := intOfOctets_contentOctets hge hlt
    refine ⟨contentOctets u.toNat, bEncUAsnIntContent_eq b hu, shortest_contentOctets hge hlt,
      hvalue, ?_⟩
    -- the content of a number that is not negative starts with a zero bit
    have hsign : signBit (o :: os) = false := by
      rw [hcontent] at hvalue
      cases hs : signBit (o :: os) with
      | false => rfl
      | true =>
          have hsmall : (natOfOctets (o :: os) : ℤ) < 256 ^ (o :: os).length := by
            exact_mod_cast natOfOctets_lt (o :: os)
          rw [intOfOctets_of_neg hs] at hvalue
          omega
    have hmsb : o.msb = false := hsign
    have hnat : (natOfOctets (o :: os) : ℤ) = u.toNat := by
      rw [← intOfOctets_of_nonneg hsign, ← hcontent, hvalue]
    have hstart : (o.setWidth 64).toNat = o.toNat := by
      rw [BitVec.toNat_setWidth]
      omega
    rw [bEncUAsnIntContent_eq b hu, hcontent, bDecUAsnIntContent_cons hlen hmsb hb,
      setWidth_shiftIn_of_nonneg hstart hnat]

/-- The values both pairs of routines get right. -/
theorem asnInt_roundTrips_iff (x u : BitVec 32) :
    (SignedRoundTrips x ↔ 0 ≤ x.toInt ∨ x.toInt < -2 ^ 23) ∧
      (UnsignedRoundTrips u ↔ u.toNat < 2 ^ 31) :=
  ⟨signedRoundTrips_iff x, unsignedRoundTrips_iff u⟩

/-- Minus one is written as one octet, and read as 33023. -/
theorem not_asnInt_roundTrips :
    ¬ ((∀ x, SignedRoundTrips x) ∧ ∀ u, UnsignedRoundTrips u) := by
  rintro ⟨h, -⟩
  obtain ⟨content, henc, -, -, hd⟩ := h (-1) ⟨[], false⟩ 0 rfl
  have hcontent : content = [0xFF] := by
    simpa using (congrArg (fun r => r.2.octets) henc).symm.trans
      (show (bEncAsnIntContent ⟨[], false⟩ (-1)).2.octets = [0xFF] by decide)
  subst hcontent
  exact absurd hd (by decide)

end Esnacc.CLib
