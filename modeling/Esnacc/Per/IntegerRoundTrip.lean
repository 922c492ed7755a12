import Esnacc.Per.IntegerOffset

/-!
Which integers survive the packed encoding. `PEnc` and `PDec` agree on the form
of the encoding; each form has one lemma that says when the value comes back.
-/

namespace Esnacc

open BitString StreamCodec AsnBufBits

/-! ### Bounds -/

/-- Both bounds are values of an `int`. -/
structure Bounds.IsInt (b : Bounds) : Prop where
  le_lowerBound : -2 ^ 31 ≤ b.lowerBound
  lowerBound_lt : b.lowerBound < 2 ^ 31
  le_upperBound : -2 ^ 31 ≤ b.upperBound
  upperBound_lt : b.upperBound < 2 ^ 31

theorem Bounds.IsInt.widen {b : Bounds} (h : b.IsInt) (r : ValueRange) : (b.widen r).IsInt := by
  have hlower := h.le_lowerBound
  have hlower' := h.lowerBound_lt
  have hupper := h.le_upperBound
  have hupper' := h.upperBound_lt
  have hge := le_toInt32 r.lowerBound
  have hlt := toInt32_lt r.lowerBound
  have hge' := le_toInt32 r.upperBound
  have hlt' := toInt32_lt r.upperBound
  unfold Bounds.widen
  split <;> constructor <;> simp only <;> split_ifs <;> assumption

theorem findBounds_isInt (r : ValueRange) (rs : List ValueRange) : (findBounds r rs).IsInt := by
  have hge := le_toInt32 r.lowerBound
  have hlt := toInt32_lt r.lowerBound
  have hloop : ∀ (rs : List ValueRange) (b : Bounds), b.IsInt → (rs.foldl Bounds.widen b).IsInt := by
    intro rs
    induction rs with
    | nil => exact fun b hb => hb
    | cons r rs ih => exact fun b hb => ih _ (hb.widen r)
  have h := hloop (r :: rs) ⟨toInt32 r.lowerBound, toInt32 r.lowerBound, r.upperBoundExists⟩
    ⟨hge, hlt, hge, hlt⟩
  simp only [findBounds]
  split
  · exact ⟨h.le_lowerBound, h.lowerBound_lt, h.le_upperBound, h.upperBound_lt⟩
  · exact h

/-- The bounds of a constraint are values of an `int`. -/
def ValueRange.Fits (r : ValueRange) : Prop :=
  toInt32 r.lowerBound = r.lowerBound ∧ toInt32 r.upperBound = r.upperBound

/-- The greatest value that a constraint names. -/
def ValueRange.top (r : ValueRange) : ℤ :=
  if r.upperBoundExists = .bounded then max r.lowerBound r.upperBound else r.lowerBound

theorem Bounds.widen_eq (b : Bounds) {r : ValueRange} (h : r.Fits) :
    (b.widen r).lowerBound = min b.lowerBound r.lowerBound ∧
      (b.widen r).upperBound = max b.upperBound r.top := by
  obtain ⟨hlower, hupper⟩ := h
  unfold Bounds.widen ValueRange.top
  rw [hlower, hupper]
  by_cases hbounded : r.upperBoundExists = .bounded
  · simp only [if_pos hbounded]
    constructor <;> split_ifs <;> omega
  · simp only [if_neg hbounded]
    constructor <;> split_ifs <;> omega

theorem foldl_widen_eq (rs : List ValueRange) (b : Bounds) (h : ∀ r ∈ rs, r.Fits) :
    (rs.foldl Bounds.widen b).lowerBound = (rs.map (·.lowerBound)).foldl min b.lowerBound ∧
      (rs.foldl Bounds.widen b).upperBound = (rs.map (·.top)).foldl max b.upperBound := by
  induction rs generalizing b with
  | nil => exact ⟨rfl, rfl⟩
  | cons r rs ih =>
      obtain ⟨hlower, hupper⟩ := b.widen_eq (h r List.mem_cons_self)
      have htail := ih (b.widen r) fun r' hr' => h r' (List.mem_cons_of_mem r hr')
      rwa [hlower, hupper] at htail

namespace AsnInt

variable {bAligned : Bool}

/-! ### Fully constrained -/

/-- The range of an encoder that is wide enough for the value. -/
theorem range_eq {lowerBound upperBound : ℤ} (h : lowerBound < upperBound)
    (hrange : upperBound - lowerBound < 2 ^ 31) :
    ∃ r : ℕ, 0 < r ∧ r < 2 ^ 31 ∧ (r : ℤ) = upperBound - lowerBound ∧
      ((upperBound - lowerBound + 1) % 2 ^ 64).toNat = r + 1 ∧
      minBitsNeeded (upperBound - lowerBound + 1 - 1) = .ok r.size := by
  obtain ⟨r, hr⟩ := Int.eq_ofNat_of_zero_le (show 0 ≤ upperBound - lowerBound by omega)
  have hr31 : r < 2 ^ 31 := by omega
  refine ⟨r, by omega, hr31, hr.symm, by omega, ?_⟩
  rw [hr, add_sub_cancel_right]
  exact minBitsNeeded_eq hr31

theorem value_lt {x : AsnInt} (h : x.mBytes.length ≤ 4) : x.value < 2 ^ 31 := by
  have hlt := intOfOctets_lt x.mBytes
  have hpow : (256 : ℤ) ^ x.mBytes.length ≤ 256 ^ 4 := by
    exact_mod_cast Nat.pow_le_pow_right (by decide) h
  rw [value]
  omega

theorem le_value {x : AsnInt} (h : x.mBytes.length ≤ 4) : -2 ^ 31 ≤ x.value := by
  have hge := le_intOfOctets x.mBytes
  have hpow : (256 : ℤ) ^ x.mBytes.length ≤ 256 ^ 4 := by
    exact_mod_cast Nat.pow_le_pow_right (by decide) h
  rw [value]
  omega

/-- Whatever is set is a machine integer and is held as such. -/
theorem set_toInt32 (z : ℤ) : ∃ x, set (toInt32 z) = .ok x ∧ x.value = toInt32 z :=
  let ⟨hset, hvalue, _⟩ := set_eq (le_toInt32 z) (toInt32_lt z)
  ⟨_, hset, hvalue⟩

/-- The integer that comes back is the one that is set to the value. -/
theorem fullyConstrained_recovers_set (pre : List Bool) {x : AsnInt} {lowerBound upperBound : ℤ}
    (hlen : x.mBytes.length ≤ 4) (hlower : lowerBound ≤ x.value) (hupper : x.value ≤ upperBound)
    (hne : lowerBound ≠ upperBound) (hrange : upperBound - lowerBound < 2 ^ 31) :
    Recovers (Written bAligned) (Unread bAligned) pre (x.pEncFullyConstrained lowerBound upperBound)
      (pDecFullyConstrained lowerBound upperBound) (set x.value = .ok ·) := by
  obtain ⟨r, hr₀, hr31, hr, htotal, hminBits⟩ :=
    range_eq (show lowerBound < upperBound by omega) hrange
  obtain ⟨t, ht⟩ := Int.eq_ofNat_of_zero_le (show 0 ≤ x.value - lowerBound by omega)
  obtain ⟨tempInt, hset, hbytes⟩ := @set_minimal t (by omega)
  have hfour := hbytes.length_le (show 0 < 4 by decide) (by omega)
  obtain ⟨xs, hputs, htakes⟩ := @offset_roundTrip bAligned pre t r _ hbytes (by omega) hr₀ hr31
  have hoffset : toInt32 (x.value - lowerBound) = t := by
    rw [ht]
    exact toInt32_eq (by omega) (by omega)
  obtain ⟨y, hy, -⟩ := set_toInt32 (t + lowerBound)
  have hback : toInt32 ((t : ℤ) + lowerBound) = x.value := by
    rw [show (t : ℤ) + lowerBound = x.value by omega, toInt32_eq (le_value hlen) (value_lt hlen)]
  refine ⟨xs.length, xs, y, ?_, hback ▸ hy, fun count => ?_⟩
  · have hinside : ¬ (x.value < lowerBound ∨ x.value > upperBound) := by omega
    unfold pEncFullyConstrained
    simp only [getInt_eq hlen, hoffset, hset, htotal, hminBits, lift_ok, pure_bind,
      if_neg (show ¬ 4 < x.mBytes.length by omega), if_neg hinside,
      if_neg (show ¬ r + 1 ≤ 0 by omega), if_neg (show ¬ r + 1 = 1 by omega),
      if_neg (show ¬ 4 < (withoutLeadingZero tempInt.mBytes).length by omega)]
    refine ((emits_isAligned pre).bind ?_).of_eq rfl (List.nil_append xs)
    rw [List.append_nil]
    exact hputs
  · unfold pDecFullyConstrained
    simp only [htotal, hminBits, lift_ok, pure_bind, if_neg (show ¬ r + 1 = 1 by omega)]
    refine ((takes_isAligned pre.length).bind (htakes.bind ?_)).of_eq rfl (List.append_nil xs)
    simp only [hy, lift_ok, pure_bind]
    exact Takes.pure _ _

theorem fullyConstrained_recovers (pre : List Bool) {x : AsnInt} {lowerBound upperBound : ℤ}
    (hlen : x.mBytes.length ≤ 4) (hlower : lowerBound ≤ x.value) (hupper : x.value ≤ upperBound)
    (hne : lowerBound ≠ upperBound) (hrange : upperBound - lowerBound < 2 ^ 31) :
    Recovers (Written bAligned) (Unread bAligned) pre (x.pEncFullyConstrained lowerBound upperBound)
      (pDecFullyConstrained lowerBound upperBound) (·.value = x.value) := by
  refine (fullyConstrained_recovers_set pre hlen hlower hupper hne hrange).imp fun y hy => ?_
  obtain ⟨hset, hvalue, -⟩ := set_eq (le_value hlen) (value_lt hlen)
  obtain rfl := Except.ok.inj (hset.symm.trans hy)
  exact hvalue

/-- A value that is out of range, or a range that the loop over its bits does
not survive. -/
theorem fullyConstrained_refuses (pre : List Bool) {x : AsnInt} {lowerBound upperBound : ℤ}
    (hlen : x.mBytes.length ≤ 4) (hwidth : upperBound - lowerBound < 2 ^ 32)
    (h : lowerBound ≤ x.value → x.value ≤ upperBound → 2 ^ 31 ≤ upperBound - lowerBound) :
    Refuses (Written bAligned) pre (x.pEncFullyConstrained lowerBound upperBound) := by
  intro b _
  unfold pEncFullyConstrained
  simp only [getInt_eq hlen, lift_ok, pure_bind, if_neg (show ¬ 4 < x.mBytes.length by omega)]
  by_cases houtside : x.value < lowerBound ∨ x.value > upperBound
  · rw [if_pos houtside]
    exact ⟨_, rfl⟩
  have hrange := h (by omega) (by omega)
  obtain ⟨tempInt, hset, -⟩ := set_toInt32 (x.value - lowerBound)
  obtain ⟨e, he⟩ := @minBitsNeeded_error (upperBound - lowerBound + 1 - 1) (by omega)
  simp only [if_neg houtside, hset, he, lift_ok, pure_bind]
  rw [if_neg (by omega)]
  split
  · exact ⟨_, rfl⟩
  · rw [if_neg (by omega)]
    exact ⟨e, rfl⟩

/-! ### Contents -/

theorem puts_interpretUnits (x : AsnInt) (pre : List Bool) {offset count : ℕ}
    (h : offset + count ≤ x.mBytes.length) :
    Puts bAligned pre (interpretUnits x.interpret offset count)
      (octetBits ((x.mBytes.drop offset).take count)) := by
  induction count generalizing pre offset with
  | zero => exact Emits.pure pre 0
  | succ count ih =>
      have hin : offset < x.mBytes.length := by omega
      have hunit : Puts bAligned pre (x.interpret offset) (bitsOf x.mBytes[offset]) := by
        have hget : x.mBytes.getD offset 0 = x.mBytes[offset] := by simp [hin]
        unfold interpret
        rw [hget]
        exact ((puts_octet pre _).bind (Emits.pure _ 8)).of_eq (by simp) (by simp)
      rw [List.drop_eq_getElem_cons hin, List.take_succ_cons, octetBits_cons]
      exact hunit.add (ih _ (by omega))

theorem takes_deterpretUnits (pos : ℕ) (os : List Octet) (x : AsnInt) :
    Takes (Unread bAligned) pos (octetBits os) (deterpretUnits deterpret os.length x)
      ({ x with mBytes := x.mBytes ++ os }, (octetBits os).length) := by
  induction os generalizing pos x with
  | nil =>
      rw [List.append_nil]
      exact Takes.pure pos (x, 0)
  | cons o os ih =>
      have hunit : Takes (Unread bAligned) pos (bitsOf o) (deterpret x)
          ({ x with mBytes := x.mBytes ++ [o] }, 8) := (takes_octet pos o).bind_pure _
      have hrest := (ih (pos + (bitsOf o).length) { x with mBytes := x.mBytes ++ [o] }).bind_pure
        fun res => (res.1, 8 + res.2)
      refine (hunit.bind hrest).of_eq ?_ rfl
      simp

theorem unitCodec (x : AsnInt) :
    UnitCodec (interpretUnits x.interpret) (deterpretUnits deterpret)
      (fun n y => y.mBytes = x.mBytes.take n) x.mBytes.length bAligned where
  stretch := by
    intro pre offset count _ h
    refine ⟨_, puts_interpretUnits x pre h, fun acc hacc => ?_⟩
    have hlen : ((x.mBytes.drop offset).take count).length = count := by simp; omega
    have htakes := @takes_deterpretUnits bAligned pre.length
      ((x.mBytes.drop offset).take count) acc
    rw [hlen] at htakes
    refine ⟨_, ?_, htakes⟩
    show acc.mBytes ++ _ = _
    rw [hacc, List.take_add]
  nothing := by
    intro _ pos acc hacc
    exact ⟨acc, hacc, Takes.pure pos _⟩

theorem unconstrained_recovers (pre : List Bool) (x y : AsnInt) :
    Recovers (Written bAligned) (Unread bAligned) pre (x.pEnc []) (y.pDec [])
      (·.mBytes = x.mBytes) := by
  obtain ⟨xs, a, hputs, ha, hgets⟩ := Esnacc.general_roundTrip takes_alignment
    (@unitCodec bAligned x) pre (show cleared.mBytes = x.mBytes.take 0 by simp [cleared])
  refine ⟨xs.length, xs, a, ?_, ha.trans List.take_length, hgets⟩
  unfold pEnc checkConstraints
  rw [if_neg (by simp), if_pos rfl, lift_ok, pure_bind]
  exact hputs

/-! ### Semi-constrained -/

/-- Few octets are written behind one octet of length. -/
theorem puts_encodeGeneral (pre : List Bool) {x : AsnInt} (h : x.mBytes.length < 128) :
    Puts bAligned pre x.encodeGeneral
      (List.replicate (padding bAligned pre.length) false ++
        (octetBits [BitVec.ofNat 8 x.mBytes.length] ++ octetBits x.mBytes)) := by
  have hshort : x.mBytes.length < l16k := h.trans (by decide)
  have hput := @puts_interpretUnits bAligned x
    (pre ++ List.replicate (padding bAligned pre.length) false ++
      octetBits [BitVec.ofNat 8 x.mBytes.length]) 0 x.mBytes.length (Nat.zero_add _).le
  rw [List.drop_zero, List.take_length] at hput
  unfold encodeGeneral Esnacc.encodeGeneral encodeLastFragment
  rw [if_pos hshort, if_pos h]
  exact puts_encodeFragment (puts_pEncDefLenTo127 · _) hput

/-- What is written for the offset `offset`: its octets, with the sign bit set
if it has wrapped around. -/
structure OffsetOctets (offset : ℤ) (bytes : List Octet) : Prop where
  length_le : bytes.length ≤ 4
  natOfOctets_eq : (natOfOctets bytes : ℤ) =
    offset + if 0 ≤ offset then 0 else 256 ^ bytes.length
  signBit : offset < 0 → signBit bytes = true

theorem set_offsetOctets {offset : ℤ} (hge : -2 ^ 31 ≤ offset) (hlt : offset < 2 ^ 31) :
    ∃ x, set offset = .ok x ∧ OffsetOctets offset (withoutLeadingZero x.mBytes) := by
  rcases lt_or_ge offset 0 with hneg | hnonneg
  · obtain ⟨hset, hvalue, hlen⟩ := set_eq hge hlt
    rw [decide_eq_false (not_le.mpr hneg)] at hset hvalue hlen
    have hsign : BitString.signBit (derOctets (bigEndian offset) false) = true := by
      by_contra hclear
      rw [intOfOctets_of_nonneg (Bool.eq_false_iff.mpr hclear)] at hvalue
      omega
    have hkeep : withoutLeadingZero (derOctets (bigEndian offset) false) =
        derOctets (bigEndian offset) false := by
      refine if_neg ?_
      exact fun h => headD_ne_zero_of_signBit hsign h.2
    rw [intOfOctets_of_neg hsign] at hvalue
    refine ⟨_, hset, ?_⟩
    show OffsetOctets offset (withoutLeadingZero (derOctets (bigEndian offset) false))
    rw [hkeep]
    exact ⟨hlen, by rw [if_neg (not_le.mpr hneg)]; omega, fun _ => hsign⟩
  · obtain ⟨t, rfl⟩ := Int.eq_ofNat_of_zero_le hnonneg
    obtain ⟨x, hset, hbytes⟩ := @set_minimal t (by omega)
    refine ⟨x, hset, hbytes.length_le (by decide) (by omega), ?_, by omega⟩
    rw [if_pos hnonneg, hbytes.value, add_zero]

theorem puts_pEncSemiConstrained (pre : List Bool) {x : AsnInt} (lowerBound : ℤ)
    (hlen : x.mBytes.length ≤ 4) :
    ∃ bytes, OffsetOctets (toInt32 (x.value - lowerBound)) bytes ∧
      Puts bAligned pre (x.pEncSemiConstrained lowerBound)
        (List.replicate (padding bAligned pre.length) false ++
          (octetBits [BitVec.ofNat 8 bytes.length] ++ octetBits bytes)) := by
  obtain ⟨tempInt, hset, hbytes⟩ := set_offsetOctets (le_toInt32 (x.value - lowerBound))
    (toInt32_lt (x.value - lowerBound))
  have hfour := hbytes.length_le
  refine ⟨_, hbytes, ?_⟩
  unfold pEncSemiConstrained
  simp only [getInt_eq hlen, hset, lift_ok, pure_bind,
    if_neg (show ¬ 4 < x.mBytes.length by omega), if_neg (not_lt.mpr hfour)]
  exact puts_encodeGeneral pre (x := { tempInt with mBytes := withoutLeadingZero tempInt.mBytes })
    (show (withoutLeadingZero tempInt.mBytes).length < 128 by omega)

/-- The reader consumes whole octets, whatever stream it is run on. -/
theorem semiConstrained_octets {pos : ℕ} {q : List Bool} {b b' : AsnBufBits} {lowerBound : ℤ}
    {count : ℕ} {res : AsnInt × ℕ} (hb : Unread bAligned pos q b)
    (hrun : (pDecSemiConstrained lowerBound count).run b = .ok (res, b')) :
    ∃ n, q.length = 8 * n + b'.ulBitsLeft := by
  unfold pDecSemiConstrained at hrun
  obtain ⟨seg, b₁, hlen, hrun⟩ := run_bind_eq_ok hrun
  obtain ⟨hfirst, -, hb₁⟩ := getBits_run_eq_ok hb hlen
  simp only at hrun
  split at hrun
  · cases hrun
  obtain ⟨seg', b₂, hbytes, hrun⟩ := run_bind_eq_ok hrun
  obtain ⟨hrest, -, hb₂⟩ := getBits_run_eq_ok hb₁ hbytes
  -- the rest computes with what was read
  obtain ⟨x, b₃, hx, hrun⟩ := run_bind_eq_ok hrun
  obtain ⟨intval, b₄, hintval, hrun⟩ := run_bind_eq_ok hrun
  obtain ⟨y, b₅, hy, hrun⟩ := run_bind_eq_ok hrun
  obtain ⟨-, rfl⟩ := lift_run_eq_ok hx
  obtain ⟨-, rfl⟩ := lift_run_eq_ok hintval
  obtain ⟨-, rfl⟩ := lift_run_eq_ok hy
  obtain ⟨-, rfl⟩ := Prod.mk.inj (Except.ok.inj hrun)
  have hleft := hb₂.bitsLeft
  rw [List.length_drop, List.length_drop] at hleft
  rw [List.length_drop] at hrest
  exact ⟨1 + (seg.headD 0).toNat, by omega⟩

theorem gets_pDecSemiConstrained (pos : ℕ) (lowerBound : ℤ) {bytes : List Octet}
    (hlen : bytes.length ≤ 4) (hfits : (derOctets bytes true).length ≤ 4) :
    ∃ y, y.value = toInt32 (natOfOctets bytes + lowerBound) ∧
      Gets bAligned pos (octetBits [BitVec.ofNat 8 bytes.length] ++ octetBits bytes)
        (pDecSemiConstrained lowerBound) y := by
  obtain ⟨y, hy, hvalue⟩ := set_toInt32 (natOfOctets bytes + lowerBound)
  refine ⟨y, hvalue, fun count => ?_⟩
  have hcount : (BitVec.ofNat 8 bytes.length).toNat = bytes.length := by
    rw [BitVec.toNat_ofNat]
    omega
  have hint : getInt ⟨intOfOctets (derOctets bytes true), derOctets bytes true⟩ =
      .ok (natOfOctets bytes) := by
    rw [getInt_eq hfits, value, intOfOctets_derOctets_unsigned]
  unfold pDecSemiConstrained
  rw [octetBits_cons, octetBits_nil, List.append_nil]
  refine (takes_octet pos _).bind ?_
  simp only [List.headD_cons, hcount, if_neg (not_lt.mpr hlen)]
  rw [Nat.mul_comm bytes.length 8]
  refine ((takes_octets _ bytes).bind ?_).of_eq rfl (List.append_nil _)
  simp only [List.take_left, setUnsigned, storeDERInteger_eq true (show bytes.length ≤ 7 by omega),
    hint, hy, lift_ok, pure_bind]
  refine (Takes.pure _ _).of_eq ?_ rfl
  simp [Nat.add_assoc]

theorem rejects_pDecSemiConstrained (pos count : ℕ) (lowerBound : ℤ) {bytes : List Octet}
    (hlen : bytes.length ≤ 4) (hlong : 4 < (derOctets bytes true).length) :
    Rejects (Unread bAligned) pos (octetBits [BitVec.ofNat 8 bytes.length] ++ octetBits bytes)
      (pDecSemiConstrained lowerBound count) := by
  have hcount : (BitVec.ofNat 8 bytes.length).toNat = bytes.length := by
    rw [BitVec.toNat_ofNat]
    omega
  obtain ⟨e, he⟩ := @getInt_error ⟨intOfOctets (derOctets bytes true), derOctets bytes true⟩ hlong
  unfold pDecSemiConstrained
  rw [octetBits_cons, octetBits_nil, List.append_nil]
  refine (takes_octet pos _).bind_rejects ?_
  simp only [List.headD_cons, hcount, if_neg (not_lt.mpr hlen)]
  rw [Nat.mul_comm bytes.length 8, ← List.append_nil (octetBits bytes)]
  refine (takes_octets _ bytes).bind_rejects fun b _ _ => ⟨e, ?_⟩
  simp only [List.take_left, setUnsigned, storeDERInteger_eq true (show bytes.length ≤ 7 by omega),
    he, lift_ok, pure_bind]
  rfl

/-- An offset that has not wrapped around fits behind a sign bit. -/
theorem OffsetOctets.length_derOctets_le {offset : ℤ} {bytes : List Octet}
    (h : OffsetOctets offset bytes) (hlt : offset < 2 ^ 31) (hfit : 0 ≤ offset ∨ bytes.length < 4) :
    (derOctets bytes true).length ≤ 4 := by
  have hlen := h.length_le
  have hder := AsnInt.length_derOctets_le bytes true
  rcases Nat.lt_or_eq_of_le hlen with hshort | hfour
  · omega
  have hnonneg : 0 ≤ offset := by omega
  have hvalue := h.natOfOctets_eq
  rw [if_pos hnonneg, add_zero] at hvalue
  have hclear : BitString.signBit bytes = false := by
    by_contra hset
    have hle := le_natOfOctets_of_neg (Bool.eq_true_of_not_eq_false hset)
    rw [hfour] at hle
    omega
  exact (length_derOctets_unsigned_le hclear).trans hlen

/-- Where the writer does not align and the offset has not wrapped around. -/
theorem semiConstrained_recovers_iff (pre : List Bool) {x : AsnInt} (lowerBound : ℤ)
    (hlen : x.mBytes.length ≤ 4) :
    Recovers (Written bAligned) (Unread bAligned) pre (x.pEncSemiConstrained lowerBound)
        (pDecSemiConstrained lowerBound) (·.value = x.value) ↔
      padding bAligned pre.length = 0 ∧ 0 ≤ toInt32 (x.value - lowerBound) := by
  obtain ⟨bytes, hbytes, hputs⟩ := @puts_pEncSemiConstrained bAligned pre x lowerBound hlen
  have hF := bitBuffer_faithful bAligned
  have hlt := toInt32_lt (x.value - lowerBound)
  have hfour := hbytes.length_le
  have hvalue := hbytes.natOfOctets_eq
  by_cases hpad : padding bAligned pre.length = 0
  · rw [hpad, List.replicate_zero, List.nil_append] at hputs
    simp only [hpad, true_and]
    by_cases hfit : 0 ≤ toInt32 (x.value - lowerBound) ∨ bytes.length < 4
    · obtain ⟨y, hy, hgets⟩ := @gets_pDecSemiConstrained bAligned pre.length lowerBound bytes hfour
        (hbytes.length_derOctets_le hlt hfit)
      have hwrap := toInt32_emod (x.value - lowerBound)
      rw [Recovers.iff_good hF hputs hgets, hy, hvalue,
        toInt32_eq_iff (le_value hlen) (value_lt hlen)]
      by_cases hnonneg : 0 ≤ toInt32 (x.value - lowerBound)
      · rw [if_pos hnonneg]
        exact iff_of_true (by omega) hnonneg
      · have hpow : (256 : ℤ) ^ bytes.length ≤ 256 ^ 3 := by
          exact_mod_cast Nat.pow_le_pow_right (by decide) (show bytes.length ≤ 3 by omega)
        have hpos : (0 : ℤ) < 256 ^ bytes.length := by positivity
        rw [if_neg hnonneg]
        exact iff_of_false (by omega) hnonneg
    · -- four octets whose sign bit is set are read as five
      obtain ⟨hneg, hlong⟩ := not_or.mp hfit
      have hsign := hbytes.signBit (not_le.mp hneg)
      have hder := length_derOctets_unsigned_of_signBit hsign
      have hreject := @rejects_pDecSemiConstrained bAligned pre.length 0 lowerBound bytes hfour
        (by omega)
      rw [Recovers.iff_takes hF hputs]
      refine iff_of_false ?_ hneg
      rintro ⟨a, -, htake⟩
      exact Takes.not_rejects hF (htake 0) hreject
  · -- the reader takes whole octets, but the padding is none
    refine iff_of_false ?_ fun h => hpad h.1
    rw [Recovers.iff_takes hF hputs]
    rintro ⟨a, -, htake⟩
    obtain ⟨b, hb⟩ := hF.exists_unread pre.length (_ ++ [])
    obtain ⟨b', hrun, hb'⟩ := htake 0 b [] hb
    obtain ⟨n, hn⟩ := semiConstrained_octets hb hrun
    have hnone := hb'.bitsLeft
    have hlt := padding_lt bAligned pre.length
    simp at hn hnone
    omega

/-! ### Constraint lists -/

theorem checkConstraints_eq {valueRanges : List ValueRange} {x : AsnInt}
    (h : Satisfies valueRanges x.value) (hlen : valueRanges = [] ∨ x.mBytes.length ≤ 4) :
    x.checkConstraints valueRanges = .ok false := by
  have hshort : ¬ (4 < x.mBytes.length ∧ 0 < valueRanges.length) := by
    rcases hlen with rfl | hlen
    · simp
    · omega
  rw [checkConstraints, if_neg hshort]
  rcases h with rfl | ⟨r, hr, hadmits⟩
  · rfl
  · have hsome : valueRanges ≠ [] := List.ne_nil_of_mem hr
    have hany : (valueRanges.any fun r => decide (r.Admits x.value)) = true :=
      List.any_eq_true.mpr ⟨r, hr, decide_eq_true hadmits⟩
    rw [if_neg hsome, getInt_eq (hlen.resolve_left hsome)]
    simp only [bind, Except.bind, pure, Except.pure, hany, Bool.not_true]

/-- The integers that come back, and where in the stream. -/
def Recoverable (bAligned : Bool) (pos : ℕ) (valueRanges : List ValueRange) (x : AsnInt) : Prop :=
  match valueRanges with
  | [] => True
  | r :: rs =>
      let b := findBounds r rs
      x.mBytes.length ≤ 4 ∧
        if b.upperBoundFound = .bounded then
          if b.lowerBound = b.upperBound then x.value = 0
          else b.lowerBound ≤ x.value ∧ x.value ≤ b.upperBound ∧
            b.upperBound - b.lowerBound < 2 ^ 31
        else rs = [] ∧ r.upperBoundExists = .single ∨
          padding bAligned pos = 0 ∧ 0 ≤ toInt32 (x.value - b.lowerBound)

theorem findBounds_single {r : ValueRange} (h : r.upperBoundExists = .single)
    (hge : -2 ^ 31 ≤ r.lowerBound) (hlt : r.lowerBound < 2 ^ 31) :
    findBounds r [] = ⟨r.lowerBound, r.lowerBound, .single⟩ := by
  simp [findBounds, Bounds.widen, h, toInt32_eq hge hlt]

theorem single_recovers (pre : List Bool) {lowerBound : ℤ} (hge : -2 ^ 31 ≤ lowerBound)
    (hlt : lowerBound < 2 ^ 31) :
    Recovers (Written bAligned) (Unread bAligned) pre (pure 0 : PerM ℕ)
      (fun bitsDecoded => do
        let x ← StateT.lift (set lowerBound)
        return (x, bitsDecoded)) (·.value = lowerBound) := by
  obtain ⟨y, hy, hvalue⟩ := set_toInt32 lowerBound
  rw [toInt32_eq hge hlt] at hy hvalue
  refine ⟨0, [], y, Emits.pure pre 0, hvalue, fun count => ?_⟩
  simp only [hy, lift_ok, pure_bind]
  exact Takes.pure _ _

/-- Bounds that coincide leave nothing to write, and nothing is set. -/
theorem oneValue_recovers_iff (pre : List Bool) {x y : AsnInt} {r : ValueRange}
    {rs : List ValueRange} (h : Satisfies (r :: rs) x.value) (hlen : x.mBytes.length ≤ 4)
    (hbounded : (findBounds r rs).upperBoundFound = .bounded)
    (hone : (findBounds r rs).lowerBound = (findBounds r rs).upperBound) :
    Recovers (Written bAligned) (Unread bAligned) pre (x.pEnc (r :: rs)) (y.pDec (r :: rs))
      (·.value = x.value) ↔ x.value = 0 := by
  unfold pEnc pDec
  simp only [checkConstraints_eq h (Or.inr hlen), lift_ok, pure_bind]
  rw [if_neg (by decide)]
  simp only [hbounded, if_true, hone, ne_eq, not_true_eq_false, if_false]
  exact (Recovers.iff_good (bitBuffer_faithful bAligned) (Emits.pure pre 0)
    fun count => Takes.pure _ _).trans eq_comm

theorem refuses_of_long (pre : List Bool) {x : AsnInt} {r : ValueRange} {rs : List ValueRange}
    (h : 4 < x.mBytes.length) : Refuses (Written bAligned) pre (x.pEnc (r :: rs)) := by
  intro b _
  unfold pEnc checkConstraints
  rw [if_pos ⟨h, by simp⟩]
  exact ⟨_, rfl⟩

theorem fullyConstrained_recovers_iff (pre : List Bool) {x : AsnInt} {b : Bounds}
    (hlen : x.mBytes.length ≤ 4) (hne : b.lowerBound ≠ b.upperBound) (hb : b.IsInt) :
    Recovers (Written bAligned) (Unread bAligned) pre
        (x.pEncFullyConstrained b.lowerBound b.upperBound)
        (pDecFullyConstrained b.lowerBound b.upperBound) (·.value = x.value) ↔
      b.lowerBound ≤ x.value ∧ x.value ≤ b.upperBound ∧
        b.upperBound - b.lowerBound < 2 ^ 31 := by
  have hlower := hb.le_lowerBound
  have hupper := hb.upperBound_lt
  constructor
  · intro hrec
    by_contra hbad
    refine Recovers.not_refuses (bitBuffer_faithful bAligned) hrec
      (fullyConstrained_refuses pre hlen (by omega) fun hge hle => ?_)
    by_contra hfits
    exact hbad ⟨hge, hle, not_le.mp hfits⟩
  · rintro ⟨hge, hle, hfits⟩
    exact fullyConstrained_recovers pre hlen hge hle hne hfits

/-- Of the integers that satisfy their constraints, exactly these come back. -/
theorem pEnc_recovers_iff (bAligned : Bool) (pre : List Bool) (valueRanges : List ValueRange)
    (x y : AsnInt) (h : Satisfies valueRanges x.value) :
    Recovers (Written bAligned) (Unread bAligned) pre (x.pEnc valueRanges) (y.pDec valueRanges)
        (·.value = x.value) ↔
      x.Recoverable bAligned pre.length valueRanges := by
  cases valueRanges with
  | nil =>
      have hbytes := @unconstrained_recovers bAligned pre x y
      exact iff_of_true (hbytes.imp fun a ha => congrArg intOfOctets ha) trivial
  | cons r rs =>
      unfold Recoverable
      by_cases hlen : x.mBytes.length ≤ 4
      swap
      · refine iff_of_false (fun hrec => ?_) fun hgood => hlen hgood.1
        exact Recovers.not_refuses (bitBuffer_faithful bAligned) hrec
          (refuses_of_long pre (not_le.mp hlen))
      simp only [hlen, true_and]
      by_cases hbounded : (findBounds r rs).upperBoundFound = .bounded
      · simp only [hbounded, if_true]
        by_cases hone : (findBounds r rs).lowerBound = (findBounds r rs).upperBound
        · rw [if_pos hone]
          exact oneValue_recovers_iff pre h hlen hbounded hone
        · rw [if_neg hone]
          unfold pEnc pDec
          simp only [checkConstraints_eq h (Or.inr hlen), lift_ok, pure_bind, hbounded, if_true,
            Bool.false_eq_true, if_false, hone, ne_eq, not_false_eq_true]
          exact fullyConstrained_recovers_iff pre hlen hone (findBounds_isInt r rs)
      · unfold pEnc pDec
        simp only [checkConstraints_eq h (Or.inr hlen), lift_ok, pure_bind, hbounded,
          Bool.false_eq_true, if_false]
        by_cases hsingle : rs = [] ∧ r.upperBoundExists = .single
        · obtain ⟨rfl, hexists⟩ := hsingle
          have hvalue : x.value = r.lowerBound := by
            simpa [Satisfies, ValueRange.Admits, hexists] using h
          have hge := hvalue ▸ le_value hlen
          have hlt := hvalue ▸ value_lt hlen
          simp only [findBounds_single hexists hge hlt, hexists, and_self, if_true, true_or,
            iff_true, getInt_eq hlen, lift_ok, pure_bind, ne_eq, hvalue, not_true_eq_false,
            if_false]
          exact single_recovers pre hge hlt
        · simp only [hsingle, if_false, false_or]
          exact semiConstrained_recovers_iff pre _ hlen

theorem pEnc_recovers_seven :
    Recovers (Written false) (Unread false) [] ((⟨7, [7]⟩ : AsnInt).pEnc [⟨0, 10, .bounded⟩])
      (cleared.pDec [⟨0, 10, .bounded⟩]) (·.value = 7) :=
  (pEnc_recovers_iff false [] [⟨0, 10, .bounded⟩] ⟨7, [7]⟩ cleared
    (Or.inr ⟨_, List.mem_cons_self, by decide⟩)).mpr ⟨by decide, by decide⟩

/-- A constraint to one value, written as a range: nothing is written, and the
reader is left with zero. -/
theorem pEnc_not_recovers_five :
    Satisfies [⟨5, 5, .bounded⟩] (⟨5, [5]⟩ : AsnInt).value ∧
      ¬ Recovers (Written true) (Unread true) [] ((⟨5, [5]⟩ : AsnInt).pEnc [⟨5, 5, .bounded⟩])
        (cleared.pDec [⟨5, 5, .bounded⟩]) (·.value = (⟨5, [5]⟩ : AsnInt).value) := by
  have h : Satisfies [⟨5, 5, .bounded⟩] (⟨5, [5]⟩ : AsnInt).value :=
    Or.inr ⟨_, List.mem_cons_self, by decide⟩
  refine ⟨h, ?_⟩
  rw [oneValue_recovers_iff [] h (by decide) (by decide) (by decide)]
  decide

end AsnInt

end Esnacc
