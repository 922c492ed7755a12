import Esnacc.Per.IntegerRoundTrip
import Esnacc.Per.Size

/-!
Which octet strings and lists survive the packed encoding under a size
constraint. A size comes back up to the bits that are carried; the rest of each
encoding is read where it was written once the size is right.
-/

namespace Esnacc

open BitString StreamCodec AsnBufBits AsnInt

/-! ### Sizes -/

/-- The bits of a size that are written. -/
def carriedBits (minBitsNeeded : ℕ) : ℕ :=
  if minBitsNeeded < 8 then minBitsNeeded else 8 + minBitsNeeded % 8

variable {bAligned : Bool}

/-- The low bits of an octet are those of the number it was converted from. -/
theorem natOfBits_drop_ofNat (m : ℕ) {n : ℕ} (hn : n ≤ 8) :
    natOfBits ((bitsOf (BitVec.ofNat 8 m)).drop (8 - n)) = m % 2 ^ n := by
  have hsplit := natOfBits_append ((bitsOf (BitVec.ofNat 8 m)).take (8 - n))
    ((bitsOf (BitVec.ofNat 8 m)).drop (8 - n))
  have hlen : ((bitsOf (BitVec.ofNat 8 m)).drop (8 - n)).length = n := by simp; omega
  have hlt := natOfBits_lt ((bitsOf (BitVec.ofNat 8 m)).drop (8 - n))
  have hdvd : 2 ^ n ∣ 2 ^ 8 := Nat.pow_dvd_pow 2 hn
  rw [List.take_append_drop, natOfBits_bitsOf, hlen, BitVec.toNat_ofNat] at hsplit
  rw [hlen] at hlt
  rw [← Nat.mod_mod_of_dvd m hdvd, hsplit, Nat.mul_add_mod', Nat.mod_eq_of_lt hlt]

theorem sizeOctet_carried (pre : List Bool) (size n : ℕ) :
    ∃ xs high, Puts bAligned pre (putSizeOctet size n) xs ∧
      Takes (Unread bAligned) pre.length xs (getSizeOctet n) (high, xs.length) ∧
      high * 2 ^ (n % 8) + size % 2 ^ (n % 8) = size % 2 ^ carriedBits n := by
  unfold putSizeOctet getSizeOctet carriedBits
  by_cases hoctet : n / 8 > 0
  · simp only [if_pos hoctet, if_neg (show ¬ n < 8 by omega)]
    refine ⟨_, _, puts_octet pre _, (takes_octet pre.length _).bind_pure _, ?_⟩
    show (BitVec.ofNat 8 (size >>> (n % 8))).toNat * 2 ^ (n % 8) + _ = _
    rw [BitVec.toNat_ofNat, Nat.shiftRight_eq_div_pow, pow_add, Nat.mul_comm (2 ^ 8), Nat.mod_mul]
    ring
  · have hsmall : n % 8 = n := by omega
    simp only [if_neg hoctet, if_pos (show n < 8 by omega), hsmall]
    refine ⟨[], 0, Emits.pure pre 0, Takes.pure pre.length _, ?_⟩
    rw [Nat.zero_mul, Nat.zero_add]

/-- A size is written in the carried bits, and they are what is read. -/
theorem size_carried (pre : List Bool) (size n : ℕ) :
    ∃ xs, Puts bAligned pre (putSize size n) xs ∧
      Takes (Unread bAligned) pre.length xs (getSize n) (size % 2 ^ carriedBits n, xs.length) := by
  obtain ⟨hs, high, hputs, htakes, hvalue⟩ := @sizeOctet_carried bAligned pre size n
  have hlow := @puts_lowOctet bAligned (pre ++ hs) (BitVec.ofNat 8 size) (n % 8) (by omega)
  have hlen : ((bitsOf (BitVec.ofNat 8 size)).drop (8 - n % 8)).length = n % 8 := by simp; omega
  have hbits := @takes_getBits bAligned (pre.length + hs.length)
    ((bitsOf (BitVec.ofNat 8 size)).drop (8 - n % 8))
  rw [hlen] at hbits
  refine ⟨hs ++ (bitsOf (BitVec.ofNat 8 size)).drop (8 - n % 8), hputs.add hlow, ?_⟩
  refine htakes.bind ?_
  by_cases hodd : n % 8 > 0
  · have hne : (bitsOf (BitVec.ofNat 8 size)).drop (8 - n % 8) ≠ [] := by
      rw [← List.length_pos_iff]
      omega
    have hshift := @toNat_ofBits_ushiftRight ((bitsOf (BitVec.ofNat 8 size)).drop (8 - n % 8))
      (by omega)
    rw [hlen, natOfBits_drop_ofNat size (by omega)] at hshift
    simp only [if_pos hodd]
    refine (hbits.bind_pure _).of_eq ?_ rfl
    rw [AsnInt.headD_pack hne (by omega), hshift, ← Nat.shiftLeft_add_eq_or_of_lt
      (Nat.mod_lt _ (Nat.two_pow_pos _)), Nat.shiftLeft_eq, hvalue, List.length_append, hlen]
  · have hnone : n % 8 = 0 := by omega
    simp only [if_neg hodd]
    refine (hbits.bind_pure _).of_eq ?_ rfl
    rw [hnone, pow_zero, Nat.mod_one, Nat.mul_one, Nat.add_zero] at hvalue
    rw [hvalue, List.length_append, hlen, hnone, Nat.add_zero]

/-! ### Octet strings -/

/-- Padding that is written under a condition is skipped under it. -/
theorem aligned_if (pre : List Bool) (p : Prop) [Decidable p] :
    ∃ xs, Puts bAligned pre (do
        let bAlign ← PerM.isAligned
        if p ∧ bAlign then PerM.octetAlignWrite else return 0) xs ∧
      Takes (Unread bAligned) pre.length xs (do
        let bAlign ← PerM.isAligned
        if p ∧ bAlign then PerM.octetAlignRead else return 0) xs.length := by
  by_cases hp : p ∧ bAligned = true
  · refine ⟨List.replicate (padding bAligned pre.length) false, ?_, ?_⟩
    · refine ((emits_isAligned pre).bind ?_).of_eq rfl (List.nil_append _)
      rw [if_pos hp, List.append_nil]
      exact puts_octetAlignWrite pre
    · have hpad : (List.replicate (padding bAligned pre.length) false).length =
        padding bAligned pre.length := List.length_replicate
      refine ((takes_isAligned pre.length).bind ?_).of_eq rfl (List.nil_append _)
      rw [if_pos hp]
      exact (takes_octetAlignRead pre.length hpad).of_eq hpad.symm rfl
  · refine ⟨[], ?_, ?_⟩
    · refine ((emits_isAligned pre).bind ?_).of_eq rfl (List.nil_append [])
      rw [if_neg hp]
      exact Emits.pure _ 0
    · refine ((takes_isAligned pre.length).bind ?_).of_eq rfl (List.nil_append [])
      rw [if_neg hp]
      exact Takes.pure _ 0

/-- A size that is written behind padding, where there is a choice. -/
theorem choice_carried (pre : List Bool) {alignWrite alignRead : PerM ℕ} (range : ℤ) (n size : ℕ)
    (halign : ∃ xs, Puts bAligned pre alignWrite xs ∧
      Takes (Unread bAligned) pre.length xs alignRead xs.length)
    (h : range ≤ 1 → size = 0) :
    ∃ xs, Puts bAligned pre (if range > 1 then do
          let pad ← alignWrite
          let len ← putSize size n
          return pad + len
        else return 0) xs ∧
      Takes (Unread bAligned) pre.length xs (if range > 1 then do
          let pad ← alignRead
          let (decodeSize, len) ← getSize n
          return (decodeSize, pad + len)
        else return (0, 0)) (size % 2 ^ carriedBits n, xs.length) := by
  by_cases hrange : range > 1
  · obtain ⟨ps, hputs, htakes⟩ := halign
    obtain ⟨xs, hputs', htakes'⟩ := @size_carried bAligned (pre ++ ps) size n
    rw [List.length_append] at htakes'
    refine ⟨ps ++ xs, ?_, ?_⟩
    · rw [if_pos hrange]
      exact hputs.add hputs'
    · rw [if_pos hrange]
      refine (htakes.bind (htakes'.bind_pure _)).of_eq ?_ rfl
      rw [List.length_append]
  · refine ⟨[], ?_, ?_⟩
    · rw [if_neg hrange]
      exact Emits.pure pre 0
    · rw [if_neg hrange, h (not_lt.mp hrange), Nat.zero_mod]
      exact Takes.pure pre.length _

/-- Contents of which the size is written in front: they come back exactly if the size does. -/
theorem sized_recovers_iff {A : Type} (pre : List Bool) (b : SizeBounds) (n : ℕ) (measure : A → ℕ)
    (x : A) {putLength putContents : PerM ℕ} {getLength : PerM (ℕ × ℕ)}
    {getContents : ℤ → PerM (A × ℕ)}
    (hge : b.iSCLowerBound ≤ measure x) (hle : measure x ≤ b.iSCUpperBound)
    (hb₀ : 0 ≤ b.iSCLowerBound)
    (hlength : ∃ xs, Puts bAligned pre putLength xs ∧ Takes (Unread bAligned) pre.length xs
      getLength ((measure x - b.iSCLowerBound).toNat % 2 ^ carriedBits n, xs.length))
    (hcontents : ∀ pre, ∃ ys, Puts bAligned pre putContents ys ∧
      Takes (Unread bAligned) pre.length ys (getContents (measure x)) (x, ys.length))
    (hmeasure : ∀ {size : ℤ} {s s' : AsnBufBits} {res : A × ℕ},
      (getContents size).run s = .ok (res, s') → measure res.1 ≤ size.toNat) :
    Recovers (Written bAligned) (Unread bAligned) pre
      (do
        let len ← putLength
        let len' ← putContents
        return len + len')
      (fun count => do
        let (decodeSize, len) ← getLength
        if decodeSize + b.iSCLowerBound > b.iSCUpperBound then
          throw (except "String size not withing restricted bounds" .restrictedTypeError)
        let (a, len') ← getContents (decodeSize + b.iSCLowerBound)
        return (a, count + len + len')) (· = x) ↔
      (measure x - b.iSCLowerBound).toNat < 2 ^ carriedBits n := by
  have hF := bitBuffer_faithful bAligned
  obtain ⟨xs, hputs, htakes⟩ := hlength
  obtain ⟨ys, hputs', htakes'⟩ := hcontents (pre ++ xs)
  obtain ⟨extra, hextra⟩ := Int.eq_ofNat_of_zero_le
    (show 0 ≤ (measure x : ℤ) - b.iSCLowerBound by omega)
  rw [hextra, Int.toNat_natCast] at htakes
  rw [Recovers.iff_takes hF (hputs.add hputs'), hextra, Int.toNat_natCast]
  constructor
  · rintro ⟨a, rfl, htake⟩
    -- the contents are no longer than the size that is read
    obtain ⟨s, hs⟩ := hF.exists_unread pre.length (xs ++ ys ++ [])
    obtain ⟨s', hrun, -⟩ := htake 0 s [] hs
    rw [List.append_assoc] at hs
    obtain ⟨s₁, hrun₁, -⟩ := htakes s (ys ++ []) hs
    obtain ⟨r, s₂, hsize, hrest⟩ := run_bind_eq_ok hrun
    obtain ⟨rfl, rfl⟩ := Prod.mk.inj (Except.ok.inj (hrun₁.symm.trans hsize))
    simp only at hrest
    split at hrest
    · cases hrest
    obtain ⟨res, s₃, hread, hrest⟩ := run_bind_eq_ok hrest
    have hlen := hmeasure hread
    obtain ⟨hres, -⟩ := Prod.mk.inj (Except.ok.inj hrest)
    have ha : res.1 = a := (Prod.mk.inj hres).1
    rw [ha] at hlen
    by_contra hlost
    have hmod := Nat.mod_lt extra (Nat.two_pow_pos (carriedBits n))
    omega
  · intro hfits
    rw [Nat.mod_eq_of_lt hfits] at htakes
    have hback : (extra : ℤ) + b.iSCLowerBound = measure x := by omega
    refine ⟨x, rfl, fun count => htakes.bind ?_⟩
    rw [List.length_append] at htakes'
    simp only [hback, if_neg (show ¬ (measure x : ℤ) > b.iSCUpperBound by omega)]
    refine (htakes'.bind_pure _).of_eq ?_ rfl
    rw [List.length_append, Nat.add_assoc]

/-- The padding of the shortest strings is skipped where it is written. -/
theorem short_aligned (pre : List Bool) (iSCUpperBound : ℤ) :
    ∃ xs, Puts bAligned pre (alignWriteIfShort iSCUpperBound) xs ∧
      Takes (Unread bAligned) pre.length xs (alignReadIfShort iSCUpperBound) xs.length :=
  aligned_if pre (iSCUpperBound ≤ 2)

namespace AsnOcts

theorem length_carried (pre : List Bool) (b : SizeBounds) (range : ℤ) (n size : ℕ)
    (h : range ≤ 1 → (size - b.iSCLowerBound).toNat = 0) :
    ∃ xs, Puts bAligned pre (putLength b range n size) xs ∧
      Takes (Unread bAligned) pre.length xs (getLength b range n)
        ((size - b.iSCLowerBound).toNat % 2 ^ carriedBits n, xs.length) :=
  choice_carried pre range n _ (short_aligned pre b.iSCUpperBound) h

theorem contents_roundTrip (pre : List Bool) (b : SizeBounds) (x : AsnOcts)
    (hle : x.mStr.length ≤ b.iSCUpperBound) (hlt : b.iSCUpperBound < 2 ^ 31) :
    ∃ xs, Puts bAligned pre (x.putContents b) xs ∧
      Takes (Unread bAligned) pre.length xs (getContents b x.mStr.length) (x, xs.length) := by
  unfold putContents getContents
  by_cases hsome : b.iSCUpperBound > 0
  · obtain ⟨ps, hputs, htakes⟩ := @short_aligned bAligned pre b.iSCUpperBound
    have hbits : ((x.mStr.length : ℤ) * 8 % 2 ^ 64).toNat = 8 * x.mStr.length := by omega
    rw [if_pos hsome, if_pos hsome, hbits]
    refine ⟨ps ++ octetBits x.mStr, hputs.add (puts_octets' _ x.mStr), ?_⟩
    refine (htakes.bind ((takes_octets _ x.mStr).bind_pure _)).of_eq ?_ rfl
    rw [Int.toNat_natCast, List.take_left, List.length_append, length_octetBits]
  · have hnil : x = ⟨[]⟩ := by
      have hlen : x.mStr.length = 0 := by omega
      ext1
      exact List.length_eq_zero_iff.mp hlen
    rw [if_neg hsome, if_neg hsome, hnil]
    exact ⟨[], Emits.pure pre 0, Takes.pure pre.length _⟩

/-- The contents are never longer than the size says. -/
theorem length_getContents_le {b : SizeBounds} {decodeSize : ℤ} {s s' : AsnBufBits}
    {res : AsnOcts × ℕ} (h : (getContents b decodeSize).run s = .ok (res, s')) :
    res.1.mStr.length ≤ decodeSize.toNat := by
  unfold getContents at h
  split at h
  · obtain ⟨pad, s₁, -, h⟩ := run_bind_eq_ok h
    obtain ⟨seg, s₂, -, h⟩ := run_bind_eq_ok h
    obtain ⟨rfl, -⟩ := Prod.mk.inj (Except.ok.inj h)
    exact List.length_take_le _ _
  · obtain ⟨rfl, -⟩ := Prod.mk.inj (Except.ok.inj h)
    exact Nat.zero_le _

/-- The octet strings that come back between these bounds. -/
def SizeRecoverable (b : SizeBounds) (x : AsnOcts) : Prop :=
  b.iSCLowerBound ≤ x.mStr.length ∧ x.mStr.length ≤ b.iSCUpperBound ∧
    b.iSCUpperBound - b.iSCLowerBound + 1 < 2 ^ 31 ∧
    (x.mStr.length - b.iSCLowerBound).toNat <
      2 ^ carriedBits (b.iSCUpperBound - b.iSCLowerBound).toNat.size

/-- Sizes out of bounds, and bounds that are too far apart. -/
theorem encodeWithBounds_refuses (pre : List Bool) {b : SizeBounds} {x : AsnOcts}
    (h : b.iSCLowerBound ≤ x.mStr.length → x.mStr.length ≤ b.iSCUpperBound →
      2 ^ 31 ≤ b.iSCUpperBound - b.iSCLowerBound + 1) :
    Refuses (Written bAligned) pre (x.encodeWithBounds b) := by
  intro s _
  unfold encodeWithBounds
  cases hrange : b.range with
  | error e => exact ⟨e, rfl⟩
  | ok range =>
      cases hbits : minBitsNeeded (range - 1) with
      | error e =>
          refine ⟨e, ?_⟩
          simp only [lift_ok, pure_bind, hbits]
          rfl
      | ok minBits =>
          have hout : (x.mStr.length : ℤ) < b.iSCLowerBound ∨
              (x.mStr.length : ℤ) > b.iSCUpperBound := by
            by_contra hin
            have hfar := h (by omega) (by omega)
            rw [SizeBounds.range, if_neg (by omega)] at hrange
            cases hrange
          simp only [hbits, lift_ok, pure_bind, if_pos hout]
          exact ⟨_, rfl⟩

theorem encodeWithBounds_recovers_iff (pre : List Bool) {b : SizeBounds} (x : AsnOcts)
    (hb : b.iSCUpperBound < 2 ^ 31)
    (hb₀ : x.mStr.length ≤ b.iSCUpperBound → 0 ≤ b.iSCLowerBound) :
    Recovers (Written bAligned) (Unread bAligned) pre (x.encodeWithBounds b) (decodeWithBounds b)
      (· = x) ↔ x.SizeRecoverable b := by
  have hF := bitBuffer_faithful bAligned
  by_cases hin : b.iSCLowerBound ≤ x.mStr.length ∧ x.mStr.length ≤ b.iSCUpperBound ∧
      b.iSCUpperBound - b.iSCLowerBound + 1 < 2 ^ 31
  swap
  · refine iff_of_false (fun hrec => Recovers.not_refuses hF hrec
      (encodeWithBounds_refuses pre fun hge hle => ?_)) fun hgood =>
        hin ⟨hgood.1, hgood.2.1, hgood.2.2.1⟩
    by_contra hnear
    exact hin ⟨hge, hle, not_le.mp hnear⟩
  obtain ⟨hge, hle, hnear⟩ := hin
  have hrange : b.range = .ok (b.iSCUpperBound - b.iSCLowerBound + 1) := if_pos ⟨by omega, hnear⟩
  have hminBits := @minBitsNeeded_of_lt (b.iSCUpperBound - b.iSCLowerBound) (by omega)
  unfold encodeWithBounds decodeWithBounds SizeRecoverable
  generalize (b.iSCUpperBound - b.iSCLowerBound).toNat.size = n at hminBits ⊢
  have hinside : ¬ ((x.mStr.length : ℤ) < b.iSCLowerBound ∨
      (x.mStr.length : ℤ) > b.iSCUpperBound) := by omega
  simp only [hrange, add_sub_cancel_right, hminBits, lift_ok, pure_bind, if_neg hinside, hge, hle,
    hnear, true_and]
  exact sized_recovers_iff pre b n (fun x : AsnOcts => x.mStr.length) x hge hle (hb₀ hle)
    (length_carried pre b _ n x.mStr.length (by omega))
    (fun pre => contents_roundTrip pre b x hle hb) length_getContents_le

end AsnOcts

/-! ### Bounds of sizes -/

/-- The lower bound never rises, as an `unsigned`. -/
theorem SizeBounds.widen_lower_le (b : SizeBounds) (c : SizeConstraint) :
    (b.widen c).iSCLowerBound % 2 ^ 32 ≤ b.iSCLowerBound % 2 ^ 32 ∧
      (b.widen c).iSCLowerBound % 2 ^ 32 ≤ c.lowerBound := by
  have hwrap := toInt32_emod c.lowerBound
  unfold SizeBounds.widen
  simp only
  split_ifs <;> omega

theorem foldl_widen_lower_le (cs : List SizeConstraint) (b : SizeBounds) :
    (cs.foldl SizeBounds.widen b).iSCLowerBound % 2 ^ 32 ≤ b.iSCLowerBound % 2 ^ 32 ∧
      ∀ c ∈ cs, (cs.foldl SizeBounds.widen b).iSCLowerBound % 2 ^ 32 ≤ c.lowerBound := by
  induction cs generalizing b with
  | nil => exact ⟨le_rfl, fun c hc => absurd hc List.not_mem_nil⟩
  | cons c cs ih =>
      obtain ⟨hb, hc⟩ := b.widen_lower_le c
      obtain ⟨hfold, hall⟩ := ih (b.widen c)
      refine ⟨hfold.trans hb, fun c' hc' => ?_⟩
      rcases List.mem_cons.mp hc' with rfl | hmem
      · exact hfold.trans hc
      · exact hall c' hmem

/-- Both bounds are values of an `int`. -/
structure SizeBounds.IsInt (b : SizeBounds) : Prop where
  le_lowerBound : -2 ^ 31 ≤ b.iSCLowerBound
  upperBound_lt : b.iSCUpperBound < 2 ^ 31

theorem SizeBounds.IsInt.foldl_widen {b : SizeBounds} (h : b.IsInt) (cs : List SizeConstraint) :
    (cs.foldl SizeBounds.widen b).IsInt := by
  induction cs generalizing b with
  | nil => exact h
  | cons c cs ih =>
      refine ih ⟨?_, ?_⟩
      · have hlower := h.le_lowerBound
        have hge := le_toInt32 c.lowerBound
        unfold SizeBounds.widen
        simp only
        split_ifs
        · exact hge
        · exact hlower
      · have hupper := h.upperBound_lt
        have hlt := toInt32_lt c.lowerBound
        have hlt' := toInt32_lt c.upperBound
        unfold SizeBounds.widen
        simp only
        split_ifs
        · exact hlt'
        · exact hlt
        · exact hlt'
        · exact hupper

theorem findSizeConstraintBounds_isInt (c : SizeConstraint) (cs : List SizeConstraint) :
    (findSizeConstraintBounds c cs).IsInt := by
  have hge := le_toInt32 c.lowerBound
  have hlt := toInt32_lt c.lowerBound
  have hfirst : (⟨toInt32 c.lowerBound, toInt32 c.lowerBound⟩ : SizeBounds).IsInt := by
    generalize toInt32 c.lowerBound = z at hge hlt ⊢
    exact ⟨hge, hlt⟩
  exact hfirst.foldl_widen (c :: cs)

/-- A size that some constraint admits is not below a bound that has wrapped
around. -/
theorem lowerBound_nonneg {c : SizeConstraint} {cs : List SizeConstraint} {size : ℕ}
    (h : ∃ c' ∈ c :: cs, c'.Admits size)
    (hle : size ≤ (findSizeConstraintBounds c cs).iSCUpperBound) :
    0 ≤ (findSizeConstraintBounds c cs).iSCLowerBound := by
  obtain ⟨c', hmem, hadmits⟩ := h
  have hlower : c'.lowerBound ≤ size := by
    unfold SizeConstraint.Admits at hadmits
    split at hadmits <;> omega
  have hwrap := (foldl_widen_lower_le (c :: cs)
    ⟨toInt32 c.lowerBound, toInt32 c.lowerBound⟩).2 c' hmem
  have hint := findSizeConstraintBounds_isInt c cs
  have hge := hint.le_lowerBound
  have hlt := hint.upperBound_lt
  change (findSizeConstraintBounds c cs).iSCLowerBound % 2 ^ 32 ≤ _ at hwrap
  omega

/-! ### Lists -/

theorem AsnInt.ofInt_toInt32 (z : ℤ) :
    ∃ x, AsnInt.ofInt (toInt32 z) = .ok x ∧ x.mBytes.length ≤ 4 ∧ x.value = toInt32 z := by
  unfold AsnInt.ofInt
  by_cases hzero : toInt32 z = 0
  · rw [if_pos hzero, hzero]
    exact ⟨_, rfl, by decide, by decide⟩
  · obtain ⟨hset, hvalue, hfour⟩ := AsnInt.set_eq (le_toInt32 z) (toInt32_lt z)
    rw [if_neg hzero]
    exact ⟨_, hset, hfour, hvalue⟩

namespace AsnList

section Elements

variable {bAligned : Bool} {T : Type} {pEncElement : T → PerM ℕ} {pDecElement : ℕ → PerM (T × ℕ)}

/-- Elements that come back one by one come back as a list. -/
theorem elements_roundTrip
    (hcodec : ∀ pre x, Recovers (Written bAligned) (Unread bAligned) pre (pEncElement x) pDecElement
      (· = x)) (pre : List Bool) (xs : List T) :
    ∃ n bits, Emits (Written bAligned) pre (encodeElements pEncElement xs) n bits ∧
      ∀ acc, Gets bAligned pre.length bits (decodeElements pDecElement xs.length acc)
        (acc ++ xs) := by
  induction xs generalizing pre with
  | nil =>
      refine ⟨0, [], Emits.pure pre 0, fun acc count => ?_⟩
      rw [List.append_nil]
      exact Takes.pure pre.length _
  | cons x xs ih =>
      obtain ⟨n, bits, y, hputs, rfl, htakes⟩ := hcodec pre x
      obtain ⟨n', bits', hputs', hgets'⟩ := ih (pre ++ bits)
      refine ⟨n + n', bits ++ bits', hputs.bind (hputs'.bind_pure _), fun acc count => ?_⟩
      have hrest := hgets' (acc ++ [y]) (count + bits.length)
      rw [List.length_append] at hrest
      refine ((htakes count).bind hrest).of_eq ?_ rfl
      simp [Nat.add_assoc]

theorem length_decodeElements {n : ℕ} {acc : List T} {count : ℕ} {s s' : AsnBufBits}
    {res : List T × ℕ} (h : (decodeElements pDecElement n acc count).run s = .ok (res, s')) :
    res.1.length = acc.length + n := by
  induction n generalizing acc count s with
  | zero =>
      obtain ⟨rfl, -⟩ := Prod.mk.inj (Except.ok.inj h)
      rfl
  | succ n ih =>
      obtain ⟨r, s₁, -, hrest⟩ := run_bind_eq_ok h
      rw [ih hrest, List.length_append, List.length_singleton]
      omega

theorem length_decodeWhileInt {n : ℤ} {count : ℕ} {s s' : AsnBufBits} {res : List T × ℕ}
    (h : (decodeWhileInt pDecElement n count).run s = .ok (res, s')) :
    res.1.length = n.toNat ∧ n < 2 ^ 31 := by
  obtain ⟨r, s₁, hloop, hrest⟩ := run_bind_eq_ok h
  have hlen := length_decodeElements hloop
  simp only at hrest
  split at hrest
  · cases hrest
  · rename_i hlt
    obtain ⟨rfl, -⟩ := Prod.mk.inj (Except.ok.inj hrest)
    rw [List.length_nil, Nat.zero_add, min_eq_left (by omega)] at hlen
    exact ⟨hlen, by omega⟩

theorem gets_decodeWhileInt {pos : ℕ} {bits : List Bool} {xs : List T}
    (h : Gets bAligned pos bits (decodeElements pDecElement xs.length []) xs)
    (hlt : xs.length < 2 ^ 31) :
    Gets bAligned pos bits (decodeWhileInt pDecElement xs.length) xs := by
  intro count
  have hmin : (min (xs.length : ℤ) (2 ^ 31)).toNat = xs.length := by
    rw [min_eq_left (by omega)]
    rfl
  unfold decodeWhileInt
  simp only [hmin, if_neg (show ¬ (2 : ℤ) ^ 31 ≤ xs.length by omega)]
  exact (h count).bind_pure id

end Elements

section Counts

variable {bAligned : Bool}

theorem alignment_roundTrip (pre : List Bool) :
    ∃ xs, Puts bAligned pre PerM.octetAlignWrite xs ∧
      Takes (Unread bAligned) pre.length xs PerM.octetAlignRead xs.length := by
  have hpad : (List.replicate (padding bAligned pre.length) false).length =
    padding bAligned pre.length := List.length_replicate
  exact ⟨_, puts_octetAlignWrite pre, (takes_octetAlignRead pre.length hpad).of_eq hpad.symm rfl⟩

theorem alignedSize_carried (pre : List Bool) (size n : ℕ) :
    ∃ xs, Puts bAligned pre (putAlignedSize size n) xs ∧
      Takes (Unread bAligned) pre.length xs (getAlignedSize n)
        (size % 2 ^ carriedBits n, xs.length) := by
  obtain ⟨ps, hputs, htakes⟩ := @alignment_roundTrip bAligned pre
  obtain ⟨xs, hputs', htakes'⟩ := @size_carried bAligned (pre ++ ps) size n
  obtain ⟨qs, hputs'', htakes''⟩ := @alignment_roundTrip bAligned (pre ++ ps ++ xs)
  rw [List.length_append] at htakes'
  rw [List.length_append, List.length_append] at htakes''
  refine ⟨ps ++ (xs ++ qs), ?_, ?_⟩
  · refine (hputs.bind (hputs'.bind (hputs''.bind_pure _))).of_eq ?_ rfl
    rw [List.length_append, List.length_append, Nat.add_assoc]
  · refine (htakes.bind (htakes'.bind (htakes''.bind_pure _))).of_eq ?_ rfl
    rw [List.length_append, List.length_append, Nat.add_assoc]

theorem alignedInt_roundTrip (pre : List Bool) (listLen : AsnInt) :
    ∃ n xs a, Emits (Written bAligned) pre (putAlignedInt listLen) n xs ∧
      a.mBytes = listLen.mBytes ∧ Gets bAligned pre.length xs getAlignedInt a := by
  obtain ⟨ps, hputs, htakes⟩ := @alignment_roundTrip bAligned pre
  obtain ⟨n, xs, a, hputs', ha, hgets⟩ := @unconstrained_recovers bAligned (pre ++ ps) listLen
    ⟨0, [0]⟩
  obtain ⟨qs, hputs'', htakes''⟩ := @alignment_roundTrip bAligned (pre ++ ps ++ xs)
  rw [List.length_append] at hgets
  rw [List.length_append, List.length_append] at htakes''
  refine ⟨ps.length + qs.length, ps ++ (xs ++ qs), a,
    hputs.bind (hputs'.bind (hputs''.bind_pure _)), ha, fun count => ?_⟩
  refine (htakes.bind ((hgets (count + ps.length)).bind (htakes''.bind_pure _))).of_eq ?_ rfl
  simp only [List.length_append, Nat.add_assoc]

end Counts

section Lists

variable {bAligned : Bool} {T : Type} {pEncElement : T → PerM ℕ} {pDecElement : ℕ → PerM (T × ℕ)}

/-- The lists that come back under a size constraint: where there is one size,
the elements are written twice and read once. -/
def SizeRecoverable (bAligned : Bool) (pre : List Bool) (pEncElement : T → PerM ℕ)
    (c : SizeConstraint) (xs : List T) : Prop :=
  match c.upperBoundExists with
  | .single => xs.length < 2 ^ 32 ∧ ∃ n bits n',
      Emits (Written bAligned) pre (encodeElements pEncElement xs) n bits ∧
        Emits (Written bAligned) (pre ++ bits) (encodeElements pEncElement xs) n' []
  | .bounded => toInt64 (c.upperBound - c.lowerBound) < 2 ^ 31 ∧
      xs.length - c.lowerBound <
        2 ^ carriedBits (toInt64 (c.upperBound - c.lowerBound)).toNat.size ∧
      xs.length < 2 ^ 31
  | .missing => xs.length < 2 ^ 31

variable (hcodec : ∀ pre x,
  Recovers (Written bAligned) (Unread bAligned) pre (pEncElement x) pDecElement (· = x))

include hcodec

theorem single_recovers_iff (pre : List Bool) {c : SizeConstraint} {xs ys : List T}
    (hsingle : c.upperBoundExists = .single) (h : xs.length = c.lowerBound) :
    Recovers (Written bAligned) (Unread bAligned) pre (pEnc pEncElement (some c) xs)
      (pDec pDecElement (some c) ys) (· = xs) ↔ SizeRecoverable bAligned pre pEncElement c xs := by
  have hF := bitBuffer_faithful bAligned
  unfold pEnc putCount pDec SizeRecoverable
  simp only [hsingle]
  by_cases hlt : xs.length < 2 ^ 32
  swap
  · refine iff_of_false (fun hrec => Recovers.not_refuses hF hrec fun s _ => ?_) fun hgood =>
      hlt hgood.1
    rw [if_pos (by omega)]
    exact ⟨_, rfl⟩
  obtain ⟨n, bits, hputs, hgets⟩ := elements_roundTrip hcodec pre xs
  obtain ⟨n', bits', hputs', -⟩ := elements_roundTrip hcodec (pre ++ bits) xs
  have hread : Gets bAligned pre.length bits (decodeWhileUnsigned pDecElement c.lowerBound) xs := by
    intro count
    unfold decodeWhileUnsigned
    simp only [← h, Nat.min_eq_left hlt.le, if_neg (not_le.mpr hlt)]
    exact (hgets [] count).bind_pure id
  rw [if_neg (by omega), Recovers.iff_takes hF (hputs.bind (hputs'.bind_pure _))]
  constructor
  · rintro ⟨a, -, htakes⟩
    obtain ⟨-, rfl⟩ := Takes.unique_append hF (hread 0) (htakes 0)
    exact ⟨hlt, n, bits, n', hputs, hputs'⟩
  · rintro ⟨-, n₁, bits₁, n₂, hbits₁, hnone⟩
    obtain ⟨-, rfl⟩ := Emits.unique hF hputs hbits₁
    obtain ⟨-, rfl⟩ := Emits.unique hF hputs' hnone
    rw [List.append_nil]
    exact ⟨xs, rfl, hread⟩

theorem bounded_recovers_iff (pre : List Bool) {c : SizeConstraint} {xs ys : List T}
    (hbounded : c.upperBoundExists = .bounded) (hge : c.lowerBound ≤ xs.length)
    (hle : xs.length ≤ c.upperBound) :
    Recovers (Written bAligned) (Unread bAligned) pre (pEnc pEncElement (some c) xs)
      (pDec pDecElement (some c) ys) (· = xs) ↔ SizeRecoverable bAligned pre pEncElement c xs := by
  have hF := bitBuffer_faithful bAligned
  unfold pEnc putCount pDec SizeRecoverable
  have hinside : ¬ (xs.length < c.lowerBound ∨ xs.length > c.upperBound) := by omega
  simp only [hbounded, if_neg hinside]
  by_cases hrange : toInt64 (c.upperBound - c.lowerBound) < 2 ^ 31
  swap
  · refine iff_of_false (fun hrec => Recovers.not_refuses hF hrec fun s _ => ?_) fun hgood =>
      hrange hgood.1
    obtain ⟨e, he⟩ := minBitsNeeded_error (not_lt.mp hrange)
    exact ⟨e, by rw [he]; rfl⟩
  simp only [minBitsNeeded_of_lt hrange, lift_ok, pure_bind, hrange, true_and]
  generalize (toInt64 (c.upperBound - c.lowerBound)).toNat.size = n
  obtain ⟨extra, hextra⟩ := Nat.exists_eq_add_of_le hge
  have hsub : xs.length - c.lowerBound = extra := by omega
  obtain ⟨ps, hputs, htakes⟩ := @alignedSize_carried bAligned pre extra n
  obtain ⟨m, bits, hputs', hgets⟩ := elements_roundTrip hcodec (pre ++ ps) xs
  rw [hsub, Recovers.iff_takes hF (hputs.bind (hputs'.bind_pure _))]
  constructor
  · rintro ⟨a, rfl, htake⟩
    -- as many elements are read as the size says that is read
    obtain ⟨s, hs⟩ := hF.exists_unread pre.length (ps ++ bits ++ [])
    obtain ⟨s', hrun, -⟩ := htake 0 s [] hs
    rw [List.append_assoc] at hs
    obtain ⟨s₁, hrun₁, -⟩ := htakes s (bits ++ []) hs
    obtain ⟨r, s₂, hsize, hrest⟩ := run_bind_eq_ok hrun
    obtain ⟨rfl, rfl⟩ := Prod.mk.inj (Except.ok.inj (hrun₁.symm.trans hsize))
    obtain ⟨hlen, hlt⟩ := length_decodeWhileInt hrest
    simp only at hlen hlt
    have hshort : a.length < 2 ^ 31 := by omega
    refine ⟨?_, hshort⟩
    by_contra hlost
    have hmod := Nat.mod_lt extra (Nat.two_pow_pos (carriedBits n))
    have hplain := @toInt64_eq ((extra % 2 ^ carriedBits n : ℕ) + c.lowerBound) (by omega)
      (by omega)
    rw [hplain] at hlen
    omega
  · rintro ⟨hfits, hlt⟩
    rw [Nat.mod_eq_of_lt hfits] at htakes
    refine ⟨xs, rfl, fun count => ?_⟩
    have hloop := gets_decodeWhileInt (hgets []) hlt (count + ps.length)
    rw [List.length_append] at hloop
    have hplain := @toInt64_eq (extra + c.lowerBound) (by omega) (by omega)
    have hback : toInt64 (extra + c.lowerBound) = xs.length := by omega
    refine (htakes.bind ?_).of_eq rfl rfl
    simp only [hback]
    refine hloop.of_eq ?_ rfl
    rw [List.length_append, Nat.add_assoc]

theorem missing_recovers_iff (pre : List Bool) {c : SizeConstraint} {xs ys : List T}
    (hmissing : c.upperBoundExists = .missing) (hge : c.lowerBound ≤ xs.length) :
    Recovers (Written bAligned) (Unread bAligned) pre (pEnc pEncElement (some c) xs)
      (pDec pDecElement (some c) ys) (· = xs) ↔ SizeRecoverable bAligned pre pEncElement c xs := by
  have hF := bitBuffer_faithful bAligned
  unfold pEnc putCount pDec SizeRecoverable
  simp only [hmissing, if_neg (not_lt.mpr hge)]
  obtain ⟨listLen, hset, hfour, hvalue⟩ := AsnInt.ofInt_toInt32 (xs.length - c.lowerBound)
  obtain ⟨n, ps, listLen', hputs, hbytes, hcount⟩ := @alignedInt_roundTrip bAligned pre listLen
  obtain ⟨m, bits, hputs', hgets⟩ := elements_roundTrip hcodec (pre ++ ps) xs
  have hint : listLen'.getInt = .ok (toInt32 (xs.length - c.lowerBound)) := by
    rw [getInt_eq (by rwa [hbytes]), value, hbytes, ← hvalue]
    rfl
  have hwrap := toInt32_emod (toInt32 (xs.length - c.lowerBound) + c.lowerBound)
  have hwrap' := toInt32_emod (xs.length - c.lowerBound)
  simp only [hset, lift_ok, pure_bind]
  rw [Recovers.iff_takes hF (hputs.bind (hputs'.bind_pure _))]
  constructor
  · rintro ⟨a, rfl, htake⟩
    obtain ⟨s, hs⟩ := hF.exists_unread pre.length (ps ++ bits ++ [])
    obtain ⟨s', hrun, -⟩ := htake 0 s [] hs
    rw [List.append_assoc] at hs
    obtain ⟨s₁, hrun₁, -⟩ := hcount 0 s (bits ++ []) hs
    obtain ⟨r, s₂, hsize, hrest⟩ := run_bind_eq_ok hrun
    obtain ⟨rfl, rfl⟩ := Prod.mk.inj (Except.ok.inj (hrun₁.symm.trans hsize))
    simp only [hint, lift_ok, pure_bind] at hrest
    obtain ⟨hlen, hlt⟩ := length_decodeWhileInt hrest
    simp only at hlen hlt
    omega
  · intro hlt
    refine ⟨xs, rfl, fun count => ?_⟩
    have hloop := gets_decodeWhileInt (hgets []) hlt (count + ps.length)
    rw [List.length_append] at hloop
    have hback : toInt32 (toInt32 (xs.length - c.lowerBound) + c.lowerBound) = xs.length := by
      rw [toInt32_eq_iff (by omega) (by omega)]
      omega
    refine ((hcount count).bind ?_).of_eq rfl rfl
    simp only [hint, lift_ok, pure_bind, hback]
    refine hloop.of_eq ?_ rfl
    rw [List.length_append, Nat.add_assoc]

end Lists

end AsnList

/-- Of the octet strings and lists whose size satisfies the constraint, exactly
these come back. -/
theorem size_recovers_iff (bAligned : Bool) (pre : List Bool) :
    (∀ (c : SizeConstraint) (cs : List SizeConstraint) (x y : AsnOcts),
      (∃ c' ∈ c :: cs, c'.Admits x.mStr.length) →
        (Recovers (Written bAligned) (Unread bAligned) pre (x.pEnc (c :: cs)) (y.pDec (c :: cs))
            (· = x) ↔
          x.SizeRecoverable (findSizeConstraintBounds c cs))) ∧
    ∀ {T : Type} (pEncElement : T → PerM ℕ) (pDecElement : ℕ → PerM (T × ℕ)),
      (∀ pre x, Recovers (Written bAligned) (Unread bAligned) pre (pEncElement x) pDecElement
        (· = x)) →
      ∀ (c : SizeConstraint) (xs ys : List T), c.Admits xs.length →
        (Recovers (Written bAligned) (Unread bAligned) pre (AsnList.pEnc pEncElement (some c) xs)
            (AsnList.pDec pDecElement (some c) ys) (· = xs) ↔
          AsnList.SizeRecoverable bAligned pre pEncElement c xs) := by
  constructor
  · intro c cs x y hadmits
    exact x.encodeWithBounds_recovers_iff pre (findSizeConstraintBounds_isInt c cs).upperBound_lt
      (lowerBound_nonneg hadmits)
  · intro T pEncElement pDecElement hcodec c xs ys hadmits
    unfold SizeConstraint.Admits at hadmits
    split at hadmits
    · rename_i hsingle
      exact AsnList.single_recovers_iff hcodec pre hsingle hadmits
    · rename_i hbounded
      exact AsnList.bounded_recovers_iff hcodec pre hbounded hadmits.1 hadmits.2
    · rename_i hmissing
      exact AsnList.missing_recovers_iff hcodec pre hmissing hadmits

/-- Elements of one octet each. -/
def putOctetElement (o : Octet) : PerM ℕ := PerM.putBits [o] 8

def getOctetElement (bitsDecoded : ℕ) : PerM (Octet × ℕ) := do
  let seg ← PerM.getBits 8
  return (seg.headD 0, bitsDecoded + 8)

theorem octetElement_recovers (bAligned : Bool) (pre : List Bool) (o : Octet) :
    Recovers (Written bAligned) (Unread bAligned) pre (putOctetElement o) getOctetElement
      (· = o) := by
  refine ⟨_, bitsOf o, o, puts_octet pre o, rfl, fun count => ?_⟩
  refine ((takes_octet pre.length o).bind_pure _).of_eq ?_ rfl
  rw [length_bitsOf, List.headD_cons]

theorem size_recovers_two :
    Recovers (Written true) (Unread true) [] ((⟨[7, 8]⟩ : AsnOcts).pEnc [⟨1, 4, .bounded⟩])
        ((⟨[]⟩ : AsnOcts).pDec [⟨1, 4, .bounded⟩]) (· = ⟨[7, 8]⟩) ∧
      Recovers (Written true) (Unread true) []
        (AsnList.pEnc putOctetElement (some ⟨1, 0, .missing⟩) [7, 8])
        (AsnList.pDec getOctetElement (some ⟨1, 0, .missing⟩) []) (· = [7, 8]) := by
  obtain ⟨hocts, hlist⟩ := size_recovers_iff true []
  have hsize : (3 : ℕ).size = 2 :=
    le_antisymm (Nat.size_le.mpr (by decide)) (Nat.lt_size.mpr (by decide))
  refine ⟨(hocts _ _ _ _ ⟨_, List.mem_cons_self, by decide⟩).mpr
    ⟨by decide, by decide, by decide, ?_⟩,
    (hlist _ _ (octetElement_recovers true) _ _ _ (by decide)).mpr
      (show [(7 : Octet), 8].length < 2 ^ 31 by decide)⟩
  show 1 < 2 ^ carriedBits (3 : ℕ).size
  rw [hsize]
  decide

/-- 512 octets where up to 65536 are allowed, of whose number nine bits are
written; and one element where one is required, which is written twice. -/
theorem size_not_recovers :
    (¬ Recovers (Written true) (Unread true) []
        ((⟨List.replicate 512 0⟩ : AsnOcts).pEnc [⟨0, 65536, .bounded⟩])
        ((⟨[]⟩ : AsnOcts).pDec [⟨0, 65536, .bounded⟩]) (· = ⟨List.replicate 512 0⟩)) ∧
      ¬ Recovers (Written true) (Unread true) []
        (AsnList.pEnc putOctetElement (some ⟨1, 0, .single⟩) [7])
        (AsnList.pDec getOctetElement (some ⟨1, 0, .single⟩) []) (· = [7]) := by
  have hF := bitBuffer_faithful true
  constructor
  · have hbounds : findSizeConstraintBounds ⟨0, 65536, .bounded⟩ [] = ⟨0, 65536⟩ := by decide
    have hsize : (65536 : ℕ).size = 17 :=
      le_antisymm (Nat.size_le.mpr (by decide)) (Nat.lt_size.mpr (by decide))
    have hiff := @AsnOcts.encodeWithBounds_recovers_iff true [] ⟨0, 65536⟩
      ⟨List.replicate 512 0⟩ (by decide) (fun _ => le_rfl)
    rw [← hbounds] at hiff
    refine mt hiff.mp fun hgood => ?_
    rw [hbounds] at hgood
    have hlt := hgood.2.2.2
    rw [List.length_replicate, show ((65536 : ℤ) - 0).toNat = 65536 from rfl, hsize] at hlt
    exact absurd hlt (by decide)
  · have hiff := @AsnList.single_recovers_iff true _ _ _ (octetElement_recovers true) []
      ⟨1, 0, .single⟩ [7] [] rfl rfl
    refine mt hiff.mp ?_
    rintro ⟨-, n, bits, n', hbits, hnone⟩
    have hfirst : Emits (Written true) bits (AsnList.encodeElements putOctetElement [7]) _ _ :=
      (puts_octet bits 7).bind_pure fun len => len + 0
    have hlen := congrArg List.length (Emits.unique hF hnone hfirst).2
    simp at hlen

end Esnacc
