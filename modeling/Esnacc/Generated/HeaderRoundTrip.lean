import Esnacc.Generated.Tag
import Esnacc.Lib.BigEndian

/-!
What the library writes as tag and length, read by the library. A tag is packed into the four
octets of a word by the macro, the decoder and `BytesInTag` independently of each other, and the
thresholds of the length forms stand in two functions.
-/

namespace Esnacc.Generated

open BitString Tlv
open Compiler (TagClass)

/-! ### Tags -/

/-- What the text of `BEncTag5` says, which has a cast without its closing bracket. -/
def bEncTag5 (cl fm : Octet) (code : ℕ) : List Octet :=
  [cl ||| fm ||| 31#8, 0x80#8 ||| BitVec.ofNat 8 (code >>> 21),
    0x80#8 ||| BitVec.ofNat 8 (code >>> 14), 0x80#8 ||| BitVec.ofNat 8 (code >>> 7),
    BitVec.ofNat 8 (code &&& 0x7F)]

/-- The writer of the size that `code` needs. -/
def writtenTag (cl fm : Octet) (code : ℕ) : List Octet :=
  if tagByteLen code = 5 then bEncTag5 cl fm code else bEncTag (tagByteLen code) cl fm code

/-- The tag `os` is read as `tag`, wherever it stands, and counted by `BytesInTag`. -/
def TagComesBack (tag : AsnTag) (os : List Octet) : Prop :=
  (∀ (past rest : List Octet) (n : ℕ),
    Cursor.Reads past rest (bDecTag n) os (tag, n + os.length)) ∧
  bytesInTag tag = os.length

variable {code : ℕ}

theorem middleBits (code : ℕ) :
    (0x80#8 ||| BitVec.ofNat 8 (code >>> 7)).setWidth 32 <<< 8 =
      (0x80#32 <<< 8) ||| ((BitVec.ofNat 32 code &&& 0x3F80#32) <<< 1) := by
  apply BitVec.eq_of_getElem_eq
  intro i hi
  interval_cases i <;> simp [getElem_ofNat code, getElem_ofNat (code >>> 7)]

theorem topBits (h : code < 2097152) :
    (BitVec.ofNat 8 (code >>> 14)).setWidth 32 <<< 16 =
      (BitVec.ofNat 32 code &&& 0x1FC000#32) <<< 2 := by
  have h21 : code.testBit 21 = false := Nat.testBit_lt_two_pow h
  apply BitVec.eq_of_getElem_eq
  intro i hi
  interval_cases i <;> simp [getElem_ofNat code, getElem_ofNat (code >>> 14), h21]

theorem bottomBits (code : ℕ) :
    (BitVec.ofNat 8 (code &&& 0x7F)).setWidth 32 = BitVec.ofNat 32 code &&& 0x7F#32 := by
  apply BitVec.eq_of_getElem_eq
  intro i hi
  interval_cases i <;> simp [getElem_ofNat code]

theorem writtenTag_of_lt (cl fm : Octet) (h : code < 2097152) :
    writtenTag cl fm code = bEncTag (tagByteLen code) cl fm code := by
  have hne : tagByteLen code ≠ 5 := by
    rw [tagByteLen]
    split_ifs <;> decide
  rw [writtenTag, if_neg hne]

theorem tagByteLen_eq_four (h1 : ¬ code < 16384) (h2 : code < 2097152) : tagByteLen code = 4 := by
  rw [tagByteLen, if_neg (by omega), if_neg (by omega), if_neg h1, if_pos h2]

theorem writtenTag_of_le (cl fm : Octet) (h : ¬ code < 2097152) :
    writtenTag cl fm code = bEncTag5 cl fm code := by
  have heq : tagByteLen code = 5 := by
    rw [tagByteLen, if_neg (by omega), if_neg (by omega), if_neg (by omega), if_neg h]
  rw [writtenTag, if_pos heq]

/-- The macro packs a tag as the decoder does, as long as it fits the word. -/
theorem makeTagId_eq_written (cl fm : Octet) (h : code < 2097152) :
    makeTagId cl fm code = tagOf (writtenTag cl fm code) := by
  rw [writtenTag_of_lt cl fm h]
  by_cases h3 : code < 16384
  · exact makeTagId_eq_tagOf cl fm h3
  · have h31 : (BitVec.setWidth 32 31#8 : BitVec 32) = 31#32 := by decide
    have h80 : (BitVec.setWidth 32 0x80#8 : BitVec 32) = 0x80#32 := by decide
    have hfirst : (cl ||| fm ||| 31#8).setWidth 32 <<< 24 =
        (cl.setWidth 32 <<< 24) ||| (fm.setWidth 32 <<< 24) ||| (31#32 <<< 24) := by
      rw [BitVec.setWidth_or, BitVec.setWidth_or, BitVec.shiftLeft_or_distrib,
        BitVec.shiftLeft_or_distrib, h31]
    have hmiddle := middleBits code
    have htop : (0x80#8 ||| BitVec.ofNat 8 (code >>> 14)).setWidth 32 <<< 16 =
        (0x80#32 <<< 16) ||| ((BitVec.ofNat 32 code &&& 0x1FC000#32) <<< 2) := by
      rw [BitVec.setWidth_or, BitVec.shiftLeft_or_distrib, h80, topBits h]
    have hbottom := bottomBits code
    rw [tagByteLen_eq_four h3 h, makeTagId, makeTagIdCode, if_neg (by omega), if_neg (by omega),
      if_neg h3]
    simp only [bEncTag, tagOf, longTagOf, tagShift, Nat.reduceSub, Nat.reduceMul, hfirst, hmiddle,
      htop, hbottom, BitVec.shiftLeft_zero]
    simp only [BitVec.or_assoc]
    rw [← BitVec.or_assoc ((BitVec.ofNat 32 code &&& 0x1FC000#32) <<< 2),
      BitVec.or_comm ((BitVec.ofNat 32 code &&& 0x1FC000#32) <<< 2), BitVec.or_assoc,
      ← BitVec.or_assoc ((BitVec.ofNat 32 code &&& 0x3F80#32) <<< 1),
      BitVec.or_comm ((BitVec.ofNat 32 code &&& 0x3F80#32) <<< 1), BitVec.or_assoc]

theorem isSubsequent_more (x : Octet) (os : List Octet) :
    isSubsequent ((0x80#8 ||| x) :: os) = isSubsequent os := by
  have hmore : ∀ x : Octet, ¬ (0x80#8 ||| x) &&& 0x80 = 0 := by decide
  rw [isSubsequent, if_neg (hmore x)]

/-- Where a tag has more than one octet, they are identifier octets. -/
theorem isIdentifier_writtenTag (cl : TagClass) (isCons : Bool) (h : 31 ≤ code) :
    isIdentifier (writtenTag (classOctet cl) (formOctet isCons) code) = true := by
  have hlong : (classOctet cl ||| formOctet isCons ||| 31#8) &&& 0x1F = 0x1F := by
    cases cl <;> cases isCons <;> decide
  have hlast : isSubsequent [BitVec.ofNat 8 (code &&& 0x7F)] = true :=
    isSubsequent_last (Nat.and_lt_two_pow code (by decide : 0x7F < 2 ^ 7))
  by_cases h3 : code < 16384
  · rw [writtenTag_of_lt _ _ (by omega)]
    exact isIdentifier_bEncTag cl isCons h3 (fun hzero => by omega)
  · by_cases h4 : code < 2097152
    · rw [writtenTag_of_lt _ _ h4, tagByteLen_eq_four h3 h4, bEncTag, isIdentifier, if_pos hlong,
        isSubsequent_more, isSubsequent_more]
      exact hlast
    · rw [writtenTag_of_le _ _ h4, bEncTag5, isIdentifier, if_pos hlong, isSubsequent_more,
        isSubsequent_more, isSubsequent_more]
      exact hlast

/-- A tag that fits the word is read, also the one that ends contents. -/
theorem bDecTag_written (cl : TagClass) (isCons : Bool) (h : code < 2097152)
    (past rest : List Octet) (n : ℕ) :
    Cursor.Reads past rest (bDecTag n) (writtenTag (classOctet cl) (formOctet isCons) code)
      (makeTagId (classOctet cl) (formOctet isCons) code,
        n + (writtenTag (classOctet cl) (formOctet isCons) code).length) := by
  rw [makeTagId_eq_written _ _ h]
  by_cases h1 : code < 31
  · have hshort : ∀ c : Fin 31,
        ¬ (classOctet cl ||| formOctet isCons ||| BitVec.ofNat 8 c.val) &&& 0x1F = 0x1F := by
      cases cl <;> cases isCons <;> decide
    rw [writtenTag_of_lt _ _ h, tagByteLen, if_pos h1, bEncTag]
    show Cursor.Reads past rest _ ([_] ++ []) _
    refine (AsnBuf.getByte_reads past _ _).bind ?_
    rw [if_neg (hshort ⟨code, h1⟩)]
    exact Cursor.Reads.pure _ _ _
  · have hlen : (writtenTag (classOctet cl) (formOctet isCons) code).length ≤ 4 := by
      rw [writtenTag_of_lt _ _ h, tagByteLen]
      split_ifs <;> simp [bEncTag]
    exact bDecTag_reads past rest (isIdentifier_writtenTag cl isCons (by omega)) hlen n

/-! ### The size of a decoded tag -/

/-- Masking the lowest `j` octets of the word leaves an octet that stands above them out. -/
theorem tagShift_and_eq_zero (o : Octet) {k j : ℕ} (hk : k < 4) (hj : j < 4) :
    tagShift o k &&& BitVec.ofNat 32 (2 ^ (8 * j) - 1) = 0#32 ↔ o = 0#8 ∨ j ≤ k := by
  have hlt := o.isLt
  have hmod : (2 ^ (8 * j) - 1) % 2 ^ 32 = 2 ^ (8 * j) - 1 :=
    Nat.mod_eq_of_lt (by interval_cases j <;> decide)
  rw [← BitVec.toNat_inj, ← BitVec.toNat_inj, tagShift, BitVec.toNat_and, BitVec.toNat_ofNat, hmod,
    Nat.and_two_pow_sub_one_eq_mod, BitVec.toNat_shiftLeft, BitVec.toNat_setWidth,
    Nat.shiftLeft_eq]
  interval_cases k <;> interval_cases j <;> simp <;> omega

/-- `BytesInTag` cannot see octets at the end that are zero. -/
theorem bytesInTag_tagOf {os : List Octet} {last : Octet} (h : os.length < 4) :
    bytesInTag (tagOf (os ++ [last])) = os.length + 1 ↔ os = [] ∨ last ≠ 0#8 := by
  have hmask (o : Octet) {k : ℕ} (hk : k < 4) := And.intro
    (@tagShift_and_eq_zero o k 3 hk (by decide)) (And.intro
      (@tagShift_and_eq_zero o k 2 hk (by decide)) (@tagShift_and_eq_zero o k 1 hk (by decide)))
  have h3 (o : Octet) := hmask o (by decide : 3 < 4)
  have h2 (o : Octet) := hmask o (by decide : 2 < 4)
  have h1 (o : Octet) := hmask o (by decide : 1 < 4)
  have h0 (o : Octet) := hmask o (by decide : 0 < 4)
  simp only [Nat.reduceMul, Nat.reducePow, Nat.reduceSub, Nat.reduceLeDiff, or_true, or_false,
    iff_true] at h3 h2 h1 h0
  -- the octets are numbered from the left, one case for each size
  match os, h with
  | [], _ => simp [tagOf, longTagOf, bytesInTag, h3]
  | [o], _ =>
      simp only [tagOf, longTagOf, bytesInTag, List.cons_append, List.nil_append,
        BitVec.ofNat_eq_ofNat,
        BitVec.and_or_distrib_right, BitVec.or_eq_zero_iff, h3, h2]
      by_cases hlast : last = 0#8 <;> simp [hlast]
  | [o, p], _ =>
      simp only [tagOf, longTagOf, bytesInTag, List.cons_append, List.nil_append, Nat.reduceSub,
        BitVec.ofNat_eq_ofNat,
        BitVec.and_or_distrib_right, BitVec.or_eq_zero_iff, h3, h2, h1]
      by_cases hlast : last = 0#8 <;> by_cases hp : p = 0#8 <;> simp [hlast, hp]
  | [o, p, q], _ =>
      simp only [tagOf, longTagOf, bytesInTag, List.cons_append, List.nil_append, Nat.reduceSub,
        BitVec.ofNat_eq_ofNat,
        BitVec.and_or_distrib_right, BitVec.or_eq_zero_iff, h3, h2, h1, h0]
      by_cases hlast : last = 0#8 <;> by_cases hp : p = 0#8 <;> by_cases hq : q = 0#8 <;>
        simp [hlast, hp, hq]

/-- The size of a tag that fits the word is right unless its last octet has no bit set. -/
theorem bytesInTag_written (cl fm : Octet) (h : code < 2097152) :
    bytesInTag (makeTagId cl fm code) = (writtenTag cl fm code).length ↔
      code < 128 ∨ code % 128 ≠ 0 := by
  rw [makeTagId_eq_written cl fm h, writtenTag_of_lt cl fm h]
  have hlast : BitVec.ofNat 8 (code &&& 0x7F) ≠ 0#8 ↔ code % 128 ≠ 0 := by
    rw [show code &&& 0x7F = code % 128 from Nat.and_two_pow_sub_one_eq_mod code 7, ne_eq,
      ← BitVec.toNat_inj, BitVec.toNat_ofNat, BitVec.toNat_ofNat]
    omega
  by_cases h1 : code < 31
  · have hsize := @bytesInTag_tagOf [] (cl ||| fm ||| BitVec.ofNat 8 code) (by decide)
    rw [tagByteLen, if_pos h1]
    exact iff_of_true (hsize.mpr (Or.inl rfl)) (Or.inl (by omega))
  · by_cases h2 : code < 128
    · have hsize := @bytesInTag_tagOf [cl ||| fm ||| 31#8] (BitVec.ofNat 8 code) (by simp)
      have hne : BitVec.ofNat 8 code ≠ 0#8 := by
        rw [ne_eq, ← BitVec.toNat_inj, BitVec.toNat_ofNat, BitVec.toNat_ofNat]
        omega
      rw [tagByteLen, if_neg h1, if_pos h2]
      exact iff_of_true (hsize.mpr (Or.inr hne)) (Or.inl h2)
    · by_cases h3 : code < 16384
      · have hsize := @bytesInTag_tagOf
          [cl ||| fm ||| 31#8, 0x80#8 ||| BitVec.ofNat 8 (code >>> 7)]
          (BitVec.ofNat 8 (code &&& 0x7F)) (by simp)
        rw [hlast] at hsize
        rw [tagByteLen, if_neg h1, if_neg h2, if_pos h3]
        exact hsize.trans (by simp [h2])
      · have hsize := @bytesInTag_tagOf
          [cl ||| fm ||| 31#8, 0x80#8 ||| BitVec.ofNat 8 (code >>> 14),
            0x80#8 ||| BitVec.ofNat 8 (code >>> 7)]
          (BitVec.ofNat 8 (code &&& 0x7F)) (by simp)
        rw [hlast] at hsize
        rw [tagByteLen_eq_four h3 h]
        exact hsize.trans (by simp [h2])

/-- A tag comes back as the macro builds it, and with its size, where it fits the word and its last
octet has a bit set. -/
theorem tagComesBack_iff (cl : TagClass) (isCons : Bool) (h : code < 2 ^ 28) :
    TagComesBack (makeTagId (classOctet cl) (formOctet isCons) code)
        (writtenTag (classOctet cl) (formOctet isCons) code) ↔
      code < 2 ^ 21 ∧ (code < 128 ∨ code % 128 ≠ 0) := by
  by_cases hfits : code < 2097152
  · rw [TagComesBack, and_iff_right fun past rest n => bDecTag_written cl isCons hfits past rest n,
      bytesInTag_written _ _ hfits]
    exact (and_iff_right hfits).symm
  · refine iff_of_false (fun hback => ?_) (fun hcond => hfits hcond.1)
    have hlen : 4 < (writtenTag (classOctet cl) (formOctet isCons) code).length := by
      rw [writtenTag_of_le _ _ hfits]
      exact Nat.lt_succ_self 4
    have hread := hback.1 [] [] 0
    have hfail := bDecTag_fails [] [] (isIdentifier_writtenTag cl isCons (by omega)) hlen 0
    exact hfail.not_reads hread

theorem tagComesBack_iff_at :
    TagComesBack (makeTagId (classOctet .cntx) (formOctet true) 129)
        (writtenTag (classOctet .cntx) (formOctet true) 129) ↔
      129 < 2 ^ 21 ∧ (129 < 128 ∨ 129 % 128 ≠ 0) :=
  tagComesBack_iff .cntx true (by decide)

/-- The tag with the number 128 is three octets, and is counted as two. -/
theorem not_tagComesBack :
    ¬ ∀ (cl : TagClass) (isCons : Bool) (code : ℕ), code < 2 ^ 28 →
      TagComesBack (makeTagId (classOctet cl) (formOctet isCons) code)
        (writtenTag (classOctet cl) (formOctet isCons) code) := fun hall =>
  absurd (hall .cntx true 128 (by decide)).2 (by decide)

/-! ### Lengths -/

/-- `BEncDefLen`: the value that is returned, and the buffer. -/
def bEncDefLenRvs (b : Deck) (len : ℕ) : ℕ × Deck :=
  if len < 128 then (1, b.putByteRvs (BitVec.ofNat 8 len))
  else if len < 256 then (2, (b.putByteRvs (BitVec.ofNat 8 len)).putByteRvs 0x81)
  else if len < 65536 then
    (3, ((b.putByteRvs (BitVec.ofNat 8 len)).putByteRvs (BitVec.ofNat 8 (len >>> 8))).putByteRvs
      0x82)
  else if len < 16777126 then
    (4, (((b.putByteRvs (BitVec.ofNat 8 len)).putByteRvs (BitVec.ofNat 8 (len >>> 8))).putByteRvs
      (BitVec.ofNat 8 (len >>> 16))).putByteRvs 0x83)
  else
    (5, ((((b.putByteRvs (BitVec.ofNat 8 len)).putByteRvs (BitVec.ofNat 8 (len >>> 8))).putByteRvs
      (BitVec.ofNat 8 (len >>> 16))).putByteRvs (BitVec.ofNat 8 (len >>> 24))).putByteRvs 0x84)

/-- The definite form of `len` without a shorter one. -/
def ShortestLength (len : ℕ) (os : List Octet) : Prop :=
  isLengthOf len os = true ∧ ∀ ps, isLengthOf len ps = true → os.length ≤ ps.length

/-- What is written for `len` is its shortest form, is counted by both functions, and is read. -/
def LengthComesBack (len : ℕ) : Prop :=
  ∀ b : Deck, ∃ os, (bEncDefLenRvs b len).2.octets = os ++ b.octets ∧ ShortestLength len os ∧
    (bEncDefLenRvs b len).1 = os.length ∧ bytesInLen len = os.length ∧
    ∀ (past rest : List Octet) (n : ℕ), Cursor.Reads past rest (bDecLen n) os (len, n + os.length)

/-- An open length is reported where the octet for it stands and nowhere else, and a length that
does not fit the type is rejected. -/
def LengthSentinelKept (b : AsnBuf) : Prop :=
  (∀ n, (∃ m b', (bDecLen n).run b = .ok ((indefiniteLen, m), b')) ↔
    b.rest.head? = some openLength) ∧
  ∀ (o : Octet) (os rest : List Octet) (n : ℕ), b.rest = o :: (os ++ rest) → 128 < o.toNat →
    os.length = (o &&& 0x7F).toNat → 2 ^ 64 ≤ natOfOctets os → ∃ e, (bDecLen n).run b = .error e

variable {len : ℕ}

theorem octets_bEncDefLenRvs (b : Deck) (len : ℕ) :
    (bEncDefLenRvs b len).2.octets = bEncDefLen len ++ b.octets := by
  rw [bEncDefLenRvs, bEncDefLen]
  split_ifs <;> simp [Deck.octets_putByteRvs]

theorem bEncDefLenRvs_fst (b : Deck) (len : ℕ) :
    (bEncDefLenRvs b len).1 = (bEncDefLen len).length := by
  rw [bEncDefLenRvs, bEncDefLen]
  split_ifs <;> rfl

theorem bytesInLen_eq (len : ℕ) : bytesInLen len = (bEncDefLen len).length := by
  rw [bytesInLen, bEncDefLen]
  split_ifs <;> rfl

/-- Octets that denote a length bound it. -/
theorem bound_of_isLengthOf {os : List Octet} (h : isLengthOf len os = true) :
    0 < os.length ∧ (len < 128 ∨ 1 < os.length ∧ len < 256 ^ (os.length - 1)) := by
  cases os with
  | nil => cases h
  | cons o os =>
      rw [isLengthOf] at h
      split at h
      · next hshort =>
          simp only [Bool.and_eq_true, List.isEmpty_iff, beq_iff_eq] at h
          exact ⟨by simp, Or.inl (h.2 ▸ hshort)⟩
      · simp only [Bool.and_eq_true, decide_eq_true_eq, beq_iff_eq] at h
        obtain ⟨⟨⟨hpos, -⟩, -⟩, rfl⟩ := h
        rw [List.length_cons, Nat.add_sub_cancel]
        exact ⟨by omega, Or.inr ⟨by omega, natOfOctets_lt os⟩⟩

/-- Between the threshold of the four octets and the largest number of three, one octet is
wasted. -/
theorem shortestLength_iff (h : len < 2 ^ 32) :
    ShortestLength len (bEncDefLen len) ↔ ¬ (16777126 ≤ len ∧ len < 16777216) := by
  constructor
  · rintro ⟨-, hleast⟩ ⟨hge, hlt⟩
    have hfour : isLengthOf len [0x83, BitVec.ofNat 8 (len >>> 16), BitVec.ofNat 8 (len >>> 8),
        BitVec.ofNat 8 len] = true := by
      simp [isLengthOf, natOfOctets, Nat.shiftRight_eq_div_pow]
      omega
    have hle := hleast _ hfour
    rw [bEncDefLen, if_neg (by omega), if_neg (by omega), if_neg (by omega), if_neg (by omega)]
      at hle
    simp at hle
  · intro hgap
    refine ⟨isLengthOf_bEncDefLen h, fun ps hps => ?_⟩
    obtain ⟨hpos, hbound⟩ := bound_of_isLengthOf hps
    by_contra hless
    have hfive : (bEncDefLen len).length ≤ 5 := by
      rw [bEncDefLen]
      split_ifs <;> simp
    have hfew : ps.length < 5 := by omega
    rw [bEncDefLen] at hless
    generalize ps.length = k at hpos hbound hless hfew
    interval_cases k <;> split_ifs at hless <;> simp at hless hbound <;> omega

theorem bDecLen_bEncDefLen (h : len < 2 ^ 32) (past rest : List Octet) (n : ℕ) :
    Cursor.Reads past rest (bDecLen n) (bEncDefLen len) (len, n + (bEncDefLen len).length) :=
  bDecLen_reads past rest (isLengthOf_bEncDefLen h) (length_bEncLen_le true false len) n

theorem lengthComesBack_iff (h : len < 2 ^ 32) :
    LengthComesBack len ↔ ¬ (16777126 ≤ len ∧ len < 16777216) := by
  rw [← shortestLength_iff h]
  constructor
  · intro hback
    obtain ⟨os, hos, hshort, -⟩ := hback []
    rw [octets_bEncDefLenRvs, List.append_left_inj] at hos
    rw [hos]
    exact hshort
  · intro hshort b
    exact ⟨bEncDefLen len, octets_bEncDefLenRvs b len, hshort, bEncDefLenRvs_fst b len,
      bytesInLen_eq len, bDecLen_bEncDefLen h⟩

/-! ### What is read as an open length -/

theorem bDecLongLen_fails (past : List Octet) {ahead : List Octet} {k : ℕ} (h : ahead.length < k)
    (len : ℕ) : Cursor.Fails past ahead (bDecLongLen k len) := by
  induction k generalizing past ahead len with
  | zero => omega
  | succ k ih =>
      cases ahead with
      | nil => exact ⟨_, rfl⟩
      | cons o os =>
          show Cursor.Fails past ([o] ++ os) _
          exact (AsnBuf.getByte_reads past os o).bind_fails (ih _ (by simpa using h) _)

/-- The octets of the largest number that the type holds. -/
theorem natOfOctets_eq_indefiniteLen {os : List Octet} (h : os.length ≤ 8) :
    natOfOctets os = indefiniteLen ↔ os = List.replicate 8 0xFF := by
  constructor
  · intro heq
    have hlt := natOfOctets_lt os
    have hlen : os.length = 8 := by
      by_contra hne
      have hpow : 256 ^ os.length ≤ 256 ^ 7 := Nat.pow_le_pow_right (by decide) (by omega)
      rw [heq, indefiniteLen] at hlt
      omega
    refine eq_of_natOfOctets_eq (by rw [hlen, List.length_replicate]) (heq.trans ?_)
    decide
  · rintro rfl
    decide

/-- What a first octet announces: itself, an open length, too much, or octets to come. -/
theorem bDecLen_cons (past os : List Octet) (o : Octet) (n : ℕ) :
    (bDecLen n).run ⟨past, o :: os⟩ =
      if o.toNat < 128 then .ok ((o.toNat, n + 1), ⟨o :: past, os⟩)
      else if o = openLength then .ok ((indefiniteLen, n + 1), ⟨o :: past, os⟩)
      else if 8 < (o &&& 0x7F).toNat then .error (boundsException "length overflow")
      else (do
        let len ← bDecLongLen (o &&& 0x7F).toNat 0
        return (len, n + 1 + (o &&& 0x7F).toNat) : BerM (ℕ × ℕ)).run ⟨o :: past, os⟩ := by
  have hget : AsnBuf.getByte.run ⟨past, o :: os⟩ = .ok (o, ⟨o :: past, os⟩) := rfl
  rw [bDecLen, StateT.run_bind, hget]
  show StateT.run (if o.toNat < 128 then _ else if o = openLength then _ else
    if 8 < (o &&& 0x7F).toNat then _ else _) _ = _
  split_ifs <;> rfl

/-- The first octet of the length of eight octets that are all ones, and these. -/
def onesLength : List Octet := [0x88, 0xFF, 0xFF, 0xFF, 0xFF, 0xFF, 0xFF, 0xFF, 0xFF]

/-- Octets of a long form that fits the type are read as their number. -/
theorem bDecLongLen_indefinite_iff (past os : List Octet) {k : ℕ} (hk : k ≤ 8) (n : ℕ) :
    (∃ m b', (do
      let len ← bDecLongLen k 0
      return (len, n + k) : BerM (ℕ × ℕ)).run ⟨past, os⟩ = .ok ((indefiniteLen, m), b')) ↔
      k = 8 ∧ List.replicate 8 0xFF <+: os := by
  by_cases hlen : os.length < k
  · refine iff_of_false ?_ ?_
    · rintro ⟨m, b', hrun⟩
      exact (bDecLongLen_fails past hlen 0).bind.not_ok hrun
    · rintro ⟨rfl, hpre⟩
      have hle := hpre.length_le
      simp at hle
      omega
  · obtain ⟨xs, ys, rfl, rfl⟩ : ∃ xs ys, os = xs ++ ys ∧ xs.length = k :=
      ⟨os.take k, os.drop k, (List.take_append_drop k os).symm, by simp; omega⟩
    have hfit : 256 ^ xs.length * 0 + natOfOctets xs < 2 ^ 64 := by
      have hlt := natOfOctets_lt xs
      have hpow : 256 ^ xs.length ≤ 256 ^ 8 := Nat.pow_le_pow_right (by decide) hk
      omega
    have hread := bDecLongLen_reads past ys xs hfit
    rw [Nat.mul_zero, Nat.zero_add] at hread
    have hrun : (do
        let len ← bDecLongLen xs.length 0
        return (len, n + xs.length) : BerM (ℕ × ℕ)).run ⟨past, xs ++ ys⟩ =
          .ok ((natOfOctets xs, n + xs.length), ⟨xs.reverse ++ past, ys⟩) :=
      hread.bind_pure fun len => (len, n + xs.length)
    constructor
    · rintro ⟨m, b', hread'⟩
      rw [hrun] at hread'
      have hones := (natOfOctets_eq_indefiniteLen hk).mp
        (Prod.mk.inj (Prod.mk.inj (Except.ok.inj hread')).1).1
      subst hones
      exact ⟨rfl, List.prefix_append _ _⟩
    · rintro ⟨hlen8, hpre⟩
      have hones : xs = List.replicate 8 0xFF := by
        have hpre' := List.prefix_of_prefix_length_le hpre (List.prefix_append xs ys)
          (by simp; omega)
        exact (hpre'.eq_of_length (by simp [hlen8])).symm
      rw [hrun, (natOfOctets_eq_indefiniteLen hk).mpr hones]
      exact ⟨_, _, rfl⟩

theorem bDecLen_indefinite_iff (b : AsnBuf) (n : ℕ) :
    (∃ m b', (bDecLen n).run b = .ok ((indefiniteLen, m), b')) ↔
      b.rest.head? = some openLength ∨ onesLength <+: b.rest := by
  obtain ⟨past, ahead⟩ := b
  cases ahead with
  | nil => exact iff_of_false (fun ⟨_, _, h⟩ => nomatch h) (by simp [onesLength])
  | cons o os =>
      have hcons : onesLength <+: o :: os ↔ 0x88 = o ∧ List.replicate 8 0xFF <+: os :=
        List.cons_prefix_cons
      rw [bDecLen_cons, hcons, List.head?_cons, Option.some_inj]
      split_ifs with hshort hopen hmuch
      · refine iff_of_false ?_ ?_
        · rintro ⟨m, b', hrun⟩
          have hlen : o.toNat = indefiniteLen :=
            (Prod.mk.inj (Prod.mk.inj (Except.ok.inj hrun)).1).1
          rw [indefiniteLen] at hlen
          omega
        · rintro (rfl | ⟨rfl, -⟩) <;> exact absurd hshort (by decide)
      · exact iff_of_true ⟨_, _, rfl⟩ (Or.inl hopen)
      · refine iff_of_false (fun ⟨_, _, h⟩ => nomatch h) ?_
        rintro (h | ⟨rfl, -⟩)
        · exact hopen h
        · exact absurd hmuch (by decide)
      · have height : (o &&& 0x7F).toNat = 8 ↔ 0x88 = o := by
          have hbits := and_lowBits (Nat.not_lt.mp hshort)
          rw [← BitVec.toNat_inj]
          show _ ↔ 136 = o.toNat
          omega
        rw [bDecLongLen_indefinite_iff _ _ (Nat.not_lt.mp hmuch), height]
        exact (or_iff_right hopen).symm

/-- A length that needs more octets than the type has is rejected, whatever follows. -/
theorem bDecLen_rejects {past os rest : List Octet} {o : Octet} (hlong : 128 < o.toNat)
    (hlen : os.length = (o &&& 0x7F).toNat) (hbig : 2 ^ 64 ≤ natOfOctets os) (n : ℕ) :
    ∃ e, (bDecLen n).run ⟨past, o :: (os ++ rest)⟩ = .error e := by
  have hmuch : 8 < (o &&& 0x7F).toNat := by
    by_contra hfew
    have hlt := natOfOctets_lt os
    have hpow : 256 ^ os.length ≤ 256 ^ 8 := Nat.pow_le_pow_right (by decide) (by omega)
    omega
  have hopen : o ≠ openLength := by
    rintro rfl
    exact absurd hlong (by decide)
  rw [bDecLen_cons, if_neg (by omega), if_neg hopen, if_pos hmuch]
  exact ⟨_, rfl⟩

/-- A length of all ones is taken for an open one. -/
theorem lengthSentinelKept_iff (b : AsnBuf) :
    LengthSentinelKept b ↔ ¬ onesLength <+: b.rest := by
  have hdiff : onesLength <+: b.rest → b.rest.head? ≠ some openLength := by
    rintro ⟨rest, hrest⟩ hhead
    rw [← hrest] at hhead
    exact absurd (Option.some.inj hhead) (by decide)
  constructor
  · intro hkept hones
    obtain ⟨m, b', hrun⟩ := (bDecLen_indefinite_iff b 0).mpr (Or.inr hones)
    exact hdiff hones ((hkept.1 0).mp ⟨m, b', hrun⟩)
  · intro hother
    refine ⟨fun n => ?_, ?_⟩
    · rw [bDecLen_indefinite_iff b n]
      exact or_iff_left hother
    · intro o os rest n hrest hlong hlen hbig
      obtain ⟨past, ahead⟩ := b
      obtain rfl : ahead = o :: (os ++ rest) := hrest
      exact bDecLen_rejects hlong hlen hbig n

/-- The lengths that come back, and the input whose length is mistaken. -/
theorem defLen_correct_iff (len : ℕ) (b : AsnBuf) (h : len < 2 ^ 32) :
    (LengthComesBack len ↔ ¬ (16777126 ≤ len ∧ len < 16777216)) ∧
      (LengthSentinelKept b ↔ ¬ onesLength <+: b.rest) :=
  ⟨lengthComesBack_iff h, lengthSentinelKept_iff b⟩

theorem defLen_correct_iff_at :
    (LengthComesBack 200 ↔ ¬ (16777126 ≤ 200 ∧ 200 < 16777216)) ∧
      (LengthSentinelKept ⟨[], [0x80]⟩ ↔ ¬ onesLength <+: [0x80]) :=
  defLen_correct_iff 200 ⟨[], [0x80]⟩ (by decide)

/-- The length 16777126 is written in five octets, where four are enough, and a length of all
ones is read as an open one. -/
theorem defLen_incorrect :
    (¬ ∀ len < 2 ^ 32, LengthComesBack len) ∧ ¬ ∀ b : AsnBuf, LengthSentinelKept b := by
  constructor
  · intro hall
    obtain ⟨os, hos, ⟨-, hleast⟩, -⟩ := hall 16777126 (by decide) []
    have hfive : os = bEncDefLen 16777126 := by
      rw [octets_bEncDefLenRvs, List.append_left_inj] at hos
      exact hos.symm
    have hle := hleast [0x83, 0xFF, 0xFF, 0xA6] (by decide)
    rw [hfive] at hle
    exact absurd hle (by decide)
  · intro hall
    have hhead := (hall ⟨[], onesLength⟩).1 0 |>.mp ⟨9, ⟨onesLength.reverse, []⟩, by rfl⟩
    exact absurd hhead (by decide)

end Esnacc.Generated
