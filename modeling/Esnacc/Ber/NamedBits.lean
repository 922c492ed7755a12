import Esnacc.Ber.Bits

/-!
The contents that are written for a bit string. For named bits they end with the last bit that is
set, which is looked for in whole octets first; the bits behind the string are written as they
stand.
-/

namespace Esnacc.AsnBits

open BitString

/-- `byteLen` and `unusedBits`, as `BEncContent` computes them. -/
def encodedSize (x : AsnBits) : ℕ × ℕ :=
  if x.nblFlag then
    let final := if x.bits ≠ [] then finalOctet x.bits (lastOctet x.bitLen) else lastOctet x.bitLen
    if x.bits = [] ∨ final = 0 ∧ x.bits.getD 0 0 = 0 then (0, 0)
    else (final + 1, unusedBits (x.bits.getD final 0))
  else ((x.bitLen + 7) / 8, if x.bitLen % 8 ≠ 0 then 8 - x.bitLen % 8 else 0)

/-- `BEncContent`. -/
def bEncContent (x : AsnBits) (b : Deck) : ℕ × Deck :=
  (x.encodedSize.1 + 1,
    (b.putSegRvs (x.bits.take x.encodedSize.1)).putByteRvs (BitVec.ofNat 8 x.encodedSize.2))

/-- What is written. -/
def contents (x : AsnBits) : List Octet :=
  BitVec.ofNat 8 x.encodedSize.2 :: x.bits.take x.encodedSize.1

/-- The octets up to the last one with a bit of the string. -/
def ownOctets (x : AsnBits) : List Octet := x.bits.take (lastOctet x.bitLen + 1)

/-- No bit is set behind the string in its last octet. -/
def PaddingClear (x : AsnBits) : Prop := ∀ b ∈ (octetBits x.ownOctets).drop x.bitLen, b = false

/-- The same string without octets behind it. -/
def cutOff (x : AsnBits) : AsnBits where
  bits := x.ownOctets
  bitLen := x.bitLen
  nblFlag := x.nblFlag
  allocated := by
    have hx := x.allocated
    have hlast := le_lastOctet x.bitLen
    rw [ownOctets, List.length_take]
    omega

variable {x : AsnBits}

/-! ### The size -/

theorem encLen_eq (x : AsnBits) : x.encLen = 8 * x.encodedSize.1 - x.encodedSize.2 := by
  rw [encLen, encodedSize]
  by_cases hnbl : x.nblFlag = true
  · simp only [hnbl, if_true]
    split_ifs <;> simp <;> omega
  · simp only [hnbl]
    split_ifs <;> simp at * <;> omega

/-- There are fewer unused bits than an octet has, and none without an octet. -/
theorem encodedSize_bounds (x : AsnBits) :
    x.encodedSize.2 ≤ 7 ∧ (x.encodedSize.1 = 0 → x.encodedSize.2 = 0) ∧
      x.encodedSize.1 ≤ x.bits.length := by
  have hx := x.allocated
  rw [encodedSize]
  by_cases hnbl : x.nblFlag = true
  · rw [if_pos hnbl]
    by_cases hnull : x.bits = []
    · simp [hnull]
    · simp only [ne_eq, hnull, not_false_eq_true, if_true, false_or]
      split
      · simp
      · next hset =>
          have hle := finalOctet_le x.bits (lastOctet x.bitLen)
          have hlast := lastOctet_lt hnull hx
          have hne : x.bits.getD (finalOctet x.bits (lastOctet x.bitLen)) 0 ≠ 0 := by
            rcases finalOctet_eq_zero_or x.bits (lastOctet x.bitLen) with h | h
            · rw [h]
              exact fun hzero => hset ⟨h, hzero⟩
            · exact h
          have hunused := (bitsOf_eq_append_unused hne).1
          refine ⟨by simp only; omega, fun h => absurd h (Nat.succ_ne_zero _), by simp only; omega⟩
  · rw [if_neg hnbl]
    simp only
    split_ifs <;> omega

theorem length_contents (x : AsnBits) : x.contents.length = (x.encLen + 7) / 8 + 1 := by
  obtain ⟨hunused, hempty, hle⟩ := x.encodedSize_bounds
  rw [contents, List.length_cons, List.length_take, encLen_eq]
  omega

theorem octets_bEncContent (x : AsnBits) (b : Deck) :
    (x.bEncContent b).2.octets = x.contents ++ b.octets ∧
      (x.bEncContent b).1 = x.contents.length := by
  obtain ⟨-, -, hle⟩ := x.encodedSize_bounds
  constructor
  · rw [bEncContent, Deck.octets_putByteRvs, Deck.octets_putSegRvs]
    rfl
  · rw [bEncContent, contents, List.length_cons, List.length_take, min_eq_left hle]

/-! ### Octets behind the string -/

theorem finalOctet_take (bits : List Octet) {m n : ℕ} (h : n < m) :
    finalOctet (bits.take m) n = finalOctet bits n := by
  induction n with
  | zero => rfl
  | succ n ih =>
      have hget : (bits.take m).getD (n + 1) 0 = bits.getD (n + 1) 0 := by
        rw [List.getD_eq_getElem?_getD, List.getD_eq_getElem?_getD, List.getElem?_take, if_pos h]
      rw [finalOctet, finalOctet, hget, ih (by omega)]

theorem getD_ownOctets (x : AsnBits) {i : ℕ} (h : i ≤ lastOctet x.bitLen) :
    x.ownOctets.getD i 0 = x.bits.getD i 0 := by
  rw [ownOctets, List.getD_eq_getElem?_getD, List.getD_eq_getElem?_getD, List.getElem?_take,
    if_pos (by omega)]

theorem encLen_cutOff (x : AsnBits) : x.cutOff.encLen = x.encLen := by
  have hnil : x.ownOctets = [] ↔ x.bits = [] := by
    rw [ownOctets, List.take_eq_nil_iff]
    simp
  have hfinal : finalOctet x.ownOctets (lastOctet x.bitLen) =
      finalOctet x.bits (lastOctet x.bitLen) := finalOctet_take x.bits (Nat.lt_succ_self _)
  have hle := finalOctet_le x.bits (lastOctet x.bitLen)
  simp only [encLen, cutOff, hfinal, ne_eq, hnil, getD_ownOctets x (Nat.zero_le _)]
  by_cases hnull : x.bits = []
  · simp [hnull]
  · simp only [hnull, not_false_eq_true, if_true, getD_ownOctets x hle]

theorem octetBits_ownOctets (x : AsnBits) :
    octetBits x.ownOctets = (octetBits x.bits).take (8 * (lastOctet x.bitLen + 1)) :=
  octetBits_take x.bits _

theorem value_cutOff (x : AsnBits) : x.cutOff.value = x.value := by
  have hlast := le_lastOctet x.bitLen
  show (octetBits x.ownOctets).take x.bitLen = (octetBits x.bits).take x.bitLen
  rw [octetBits_ownOctets, List.take_take, min_eq_left hlast]

/-- The bits that are encoded lie in the octets of the string. -/
theorem take_encLen_cutOff (x : AsnBits) :
    (octetBits x.cutOff.bits).take x.encLen = (octetBits x.bits).take x.encLen := by
  have hle := x.cutOff.encLen_le
  have hbits : x.cutOff.bits = x.ownOctets := rfl
  rw [encLen_cutOff, hbits, ownOctets, List.length_take] at hle
  rw [hbits, octetBits_ownOctets, List.take_take, min_eq_left (by omega)]

theorem take_encLen_of_padding (hnbl : x.nblFlag = true) (h : x.PaddingClear) :
    (octetBits x.bits).take x.encLen = x.namedValue := by
  have hnamed : (octetBits x.cutOff.bits).take x.cutOff.encLen = x.cutOff.namedValue :=
    take_encLen_of_named hnbl h
  rw [encLen_cutOff, take_encLen_cutOff, namedValue, value_cutOff] at hnamed
  exact hnamed

/-! ### What is decoded -/

/-- The contents are decoded to the bits that were counted, wherever they stand and whatever
shorter string the object held. -/
theorem bDecContent_contents (x y : AsnBits) {tagId : AsnTag} (htag : tagIsCons tagId = false)
    (hy : y.bitLen ≤ x.encLen) {past rest : List Octet}
    (hfit : past.length + x.contents.length + rest.length < 2 ^ 31) (n : ℕ) :
    ∃ z, bDecContent y tagId x.contents.length ⟨past, x.contents ++ rest⟩ n =
        (z, .ok (n + x.contents.length, ⟨x.contents.reverse ++ past, rest⟩)) ∧
      z.value = (octetBits x.bits).take x.encLen := by
  obtain ⟨hunused, hempty, hle⟩ := x.encodedSize_bounds
  have hnat : (BitVec.ofNat 8 x.encodedSize.2).toNat = x.encodedSize.2 := by
    rw [BitVec.toNat_ofNat]
    omega
  have hlen : (x.bits.take x.encodedSize.1).length = x.encodedSize.1 := by
    rw [List.length_take, min_eq_left hle]
  have hzero : x.bits.take x.encodedSize.1 = [] → BitVec.ofNat 8 x.encodedSize.2 = 0 := by
    intro hnil
    rw [hnil] at hlen
    rw [hempty hlen.symm]
    rfl
  have hroom : x.contents.length = x.encodedSize.1 + 1 := by rw [contents, List.length_cons, hlen]
  rw [hroom] at hfit
  have hbuffer : AsnBuf.bytesRemaining ⟨past, x.contents ++ rest⟩ =
      (x.encodedSize.1 + 1) + rest.length := by
    rw [AsnBuf.bytesRemaining_eq (by simp [hroom]; omega)]
    simp [hroom]
  have hread : (x.bits.take x.encodedSize.1).length + 1 ≠ indefiniteLen ∧
      (x.bits.take x.encodedSize.1).length + 1 ≤
        AsnBuf.bytesRemaining ⟨past, x.contents ++ rest⟩ := by
    rw [hlen, hbuffer, indefiniteLen]
    omega
  have hstored := @bDecContent_stored y tagId n past rest (x.bits.take x.encodedSize.1)
    (BitVec.ofNat 8 x.encodedSize.2) htag hread (by omega) hzero
  refine ⟨y.store (BitVec.ofNat 8 x.encodedSize.2).toNat (x.bits.take x.encodedSize.1),
    hstored.trans ?_, ?_⟩
  · rw [contents, List.length_cons, List.reverse_cons, List.append_assoc]
    rfl
  · have hbits : 8 * (x.bits.take x.encodedSize.1).length -
        (BitVec.ofNat 8 x.encodedSize.2).toNat = x.encLen := by
      rw [hlen, hnat, encLen_eq]
    rw [value_store (by omega) hzero (by rw [hbits]; exact hy), hbits, octetBits_take,
      List.take_take, min_eq_left (by rw [encLen_eq]; omega)]

theorem drop_bitsOf {o : Octet} (h : o ≠ 0) :
    (bitsOf o).drop (8 - unusedBits o) = List.replicate (unusedBits o) false := by
  revert o
  decide

/-- Behind the bits that were counted, the octets that are written are clear: by the search for
named bits, and else where the string has nothing there. -/
theorem padding_contents (h : x.nblFlag = true ∨ x.PaddingClear) :
    ∀ b ∈ (octetBits x.contents.tail).drop x.encLen, b = false := by
  show ∀ b ∈ (octetBits (x.bits.take x.encodedSize.1)).drop x.encLen, b = false
  by_cases hnbl : x.nblFlag = true
  · rw [encLen_eq, encodedSize, if_pos hnbl]
    by_cases hnull : x.bits = []
    · simp [hnull]
    · simp only [ne_eq, hnull, not_false_eq_true, if_true, false_or]
      split
      · simp
      · next hset =>
          have hle := finalOctet_le x.bits (lastOctet x.bitLen)
          have hlast := lastOctet_lt hnull x.allocated
          have hne : x.bits.getD (finalOctet x.bits (lastOctet x.bitLen)) 0 ≠ 0 := by
            rcases finalOctet_eq_zero_or x.bits (lastOctet x.bitLen) with h | h
            · rw [h]
              exact fun hzero => hset ⟨h, hzero⟩
            · exact h
          have hlt : finalOctet x.bits (lastOctet x.bitLen) < x.bits.length := by omega
          generalize finalOctet x.bits (lastOctet x.bitLen) = f at hne hlt
          have hunused := (bitsOf_eq_append_unused hne).1
          have hsplit : x.bits.take (f + 1) = x.bits.take f ++ [x.bits.getD f 0] := by
            rw [List.getD_eq_getElem _ _ hlt, List.take_append_getElem hlt]
          have hlen : (octetBits (x.bits.take f)).length = 8 * f := by
            rw [length_octetBits, List.length_take, min_eq_left hlt.le]
          have hdrop : 8 * (f + 1) - unusedBits (x.bits.getD f 0) =
              (octetBits (x.bits.take f)).length + (8 - unusedBits (x.bits.getD f 0)) := by
            rw [hlen]
            omega
          rw [hsplit, octetBits_append, hdrop, List.drop_length_add_append, octetBits_cons,
            octetBits_nil, List.append_nil, drop_bitsOf hne]
          exact fun b hb => List.eq_of_mem_replicate hb
  · have hclear := h.resolve_left hnbl
    have hfalse : x.nblFlag = false := Bool.eq_false_iff.mpr hnbl
    have hsize : x.encodedSize.1 = (x.bitLen + 7) / 8 := by
      rw [encodedSize, if_neg hnbl]
    have hle : (x.bitLen + 7) / 8 ≤ lastOctet x.bitLen + 1 := by
      have hlast := le_lastOctet x.bitLen
      omega
    have hown : octetBits (x.bits.take x.encodedSize.1) =
        (octetBits x.ownOctets).take (8 * x.encodedSize.1) := by
      rw [octetBits_ownOctets, octetBits_take, List.take_take, min_eq_left (by omega)]
    intro b hb
    rw [encLen_of_plain hfalse, hown, List.drop_take] at hb
    exact hclear b (List.mem_of_mem_take hb)

/-- Named bits that denote the same are written as the same octets. -/
theorem contents_eq {y : AsnBits} (hx : x.nblFlag = true) (hy : y.nblFlag = true)
    (hxp : x.PaddingClear) (hyp : y.PaddingClear) (h : x.namedValue = y.namedValue) :
    x.contents = y.contents := by
  have htake : (octetBits x.bits).take x.encLen = (octetBits y.bits).take y.encLen := by
    rw [take_encLen_of_padding hx hxp, take_encLen_of_padding hy hyp, h]
  have hlen : x.encLen = y.encLen := by
    have hboth := congrArg List.length htake
    have hxle := x.encLen_le
    have hyle := y.encLen_le
    rwa [List.length_take, List.length_take, length_octetBits, length_octetBits,
      min_eq_left hxle, min_eq_left hyle] at hboth
  obtain ⟨hxu, hx0, hxle⟩ := x.encodedSize_bounds
  obtain ⟨hyu, hy0, hyle⟩ := y.encodedSize_bounds
  have hxe := x.encLen_eq
  have hye := y.encLen_eq
  have hbytes : x.encodedSize.1 = y.encodedSize.1 := by omega
  have hunused : x.encodedSize.2 = y.encodedSize.2 := by omega
  -- the octets are the bits that are counted, and zeros
  have hoctets (z : AsnBits) (hz : z.nblFlag = true) (hle : z.encodedSize.1 ≤ z.bits.length) :
      octetBits (z.bits.take z.encodedSize.1) =
        (octetBits z.bits).take z.encLen ++ List.replicate z.encodedSize.2 false := by
    have hzu := z.encodedSize_bounds
    have hze := z.encLen_eq
    have hclear := padding_contents (Or.inl hz)
    have htotal : (octetBits (z.bits.take z.encodedSize.1)).length = 8 * z.encodedSize.1 := by
      rw [length_octetBits, List.length_take, min_eq_left hle]
    conv_lhs => rw [← List.take_append_drop z.encLen (octetBits (z.bits.take z.encodedSize.1))]
    congr 1
    · rw [octetBits_take, List.take_take, min_eq_left (by omega)]
    · refine List.eq_replicate_iff.mpr ⟨?_, hclear⟩
      rw [List.length_drop, htotal]
      omega
  rw [contents, contents, hunused]
  congr 1
  apply octetBits_injective
  rw [hoctets x hx hxle, hoctets y hy hyle, htake, hunused]

/-! ### The whole -/

/-- What holds of the contents of a bit string; `encLen` is the number of bits in them. -/
structure EncodesBits (x : AsnBits) : Prop where
  written : ∀ b, (x.bEncContent b).2.octets = x.contents ++ b.octets ∧
    (x.bEncContent b).1 = x.contents.length
  size : x.contents.length = (x.encLen + 7) / 8 + 1
  decoded : ∀ (y : AsnBits) (tagId : AsnTag) (past rest : List Octet) (n : ℕ),
    tagIsCons tagId = false → y.bitLen ≤ x.encLen →
    past.length + x.contents.length + rest.length < 2 ^ 31 →
    ∃ z, bDecContent y tagId x.contents.length ⟨past, x.contents ++ rest⟩ n =
        (z, .ok (n + x.contents.length, ⟨x.contents.reverse ++ past, rest⟩)) ∧
      (x.nblFlag = false → z.value = x.value) ∧
      (x.nblFlag = true → x.PaddingClear → z.value = x.namedValue)
  padding : x.nblFlag = true ∨ x.PaddingClear →
    ∀ b ∈ (octetBits x.contents.tail).drop x.encLen, b = false
  canonical : ∀ y : AsnBits, x.nblFlag = true → y.nblFlag = true → x.PaddingClear →
    y.PaddingClear → x.namedValue = y.namedValue → x.contents = y.contents

theorem encodesBits (x : AsnBits) : x.EncodesBits where
  written := x.octets_bEncContent
  size := x.length_contents
  decoded y tagId past rest n htag hy hfit := by
    obtain ⟨z, hz, hvalue⟩ := bDecContent_contents x y htag hy hfit n
    refine ⟨z, hz, fun hplain => ?_, fun hnbl hclear => ?_⟩
    · rw [hvalue, encLen_of_plain hplain]
      rfl
    · rw [hvalue, take_encLen_of_padding hnbl hclear]
  padding := padding_contents
  canonical y hx hy hxp hyp h := contents_eq hx hy hxp hyp h

/-- Eight bits are two octets of contents, and counted as eight. -/
theorem encLen_ne_contents :
    ¬ ∀ (x : AsnBits) (b : Deck), x.encLen = (x.bEncContent b).1 := by
  intro hall
  exact absurd (hall ⟨[0xFF], 8, false, by decide⟩ []) (by decide)

end Esnacc.AsnBits
