import Esnacc.Ber.TagLen
import Esnacc.Compiler.TypeGraph

/-!
The tags and lengths in generated code. The compiler prints a tag twice: as a call of `BEncTag`
with the size of the tag in its name, and as the constant `MAKE_TAG_ID` that a decoded tag is
compared with. Both have the number from `DetermineCode`, which keeps four digits of it.
-/

namespace Esnacc.Generated

open BitString Tlv
open Compiler (TagClass)

inductive Form
  | prim | cons | anyForm
  deriving DecidableEq, Repr

/-- A tag of the list that `GetTags` returns. -/
structure BerTag where
  tclass : TagClass
  form : Form
  code : ℕ
  deriving DecidableEq, Repr

/-- `UNIV`, `APPL`, `CNTX` and `PRIV`. -/
def classOctet : TagClass → Octet
  | .univ => 0x00
  | .appl => 0x40
  | .cntx => 0x80
  | .priv => 0xC0

/-- `PRIM` and `CONS`. -/
def formOctet (isCons : Bool) : Octet := if isCons then 0x20 else 0x00

/-- The number that `DetermineCode` prints for `code`. -/
def determineCode (code : ℕ) : ℕ := code / 10 ^ (Nat.log 10 code - 3)

def tagByteLen (tagCode : ℕ) : ℕ :=
  if tagCode < 31 then 1
  else if tagCode < 128 then 2
  else if tagCode < 16384 then 3
  else if tagCode < 2097152 then 4
  else 5

/-- `BEncTag1` to `BEncTag4`. The last macro of the family is not C++, and writes nothing here. -/
def bEncTag (tagLen : ℕ) (cl fm : Octet) (code : ℕ) : List Octet :=
  match tagLen with
  | 1 => [cl ||| fm ||| BitVec.ofNat 8 code]
  | 2 => [cl ||| fm ||| 31#8, BitVec.ofNat 8 code]
  | 3 => [cl ||| fm ||| 31#8, 0x80#8 ||| BitVec.ofNat 8 (code >>> 7), BitVec.ofNat 8 (code &&& 0x7F)]
  | 4 => [cl ||| fm ||| 31#8, 0x80#8 ||| BitVec.ofNat 8 (code >>> 14),
      0x80#8 ||| BitVec.ofNat 8 (code >>> 7), BitVec.ofNat 8 (code &&& 0x7F)]
  | _ => []

/-- `MAKE_TAG_ID_CODE`. -/
def makeTagIdCode (cd : ℕ) : BitVec 32 :=
  let b := BitVec.ofNat 32 cd
  if cd < 31 then b <<< 24
  else if cd < 128 then (31#32 <<< 24) ||| (b <<< 16)
  else if cd < 16384 then
    (31#32 <<< 24) ||| ((b &&& 0x3F80#32) <<< 9) ||| (0x80#32 <<< 16) ||| ((b &&& 0x7F#32) <<< 8)
  else
    (31#32 <<< 24) ||| ((b &&& 0x1FC000#32) <<< 2) ||| (0x80#32 <<< 16) ||| ((b &&& 0x3F80#32) <<< 1) |||
      (0x80#32 <<< 8) ||| (b &&& 0x7F#32)

/-- `MAKE_TAG_ID(cl, fm, cd)`. -/
def makeTagId (cl fm : Octet) (cd : ℕ) : AsnTag :=
  (cl.setWidth 32 <<< 24) ||| (fm.setWidth 32 <<< 24) ||| makeTagIdCode cd

theorem determineCode_eq {code : ℕ} (h : code < 10000) : determineCode code = code := by
  have hlog : Nat.log 10 code ≤ 3 := by
    rcases Nat.eq_zero_or_pos code with rfl | hpos
    · simp
    · have hlt : Nat.log 10 code < 4 := Nat.log_lt_of_lt_pow hpos.ne' (by omega)
      omega
  rw [determineCode, Nat.sub_eq_zero_of_le hlog, pow_zero, Nat.div_one]

theorem getElem_ofNat {w : ℕ} (n i : ℕ) (h : i < w) : (BitVec.ofNat w n)[i] = n.testBit i := by
  rw [BitVec.getElem_eq_testBit_toNat, BitVec.toNat_ofNat, Nat.testBit_mod_two_pow]
  simp [h]

theorem highBits {code : ℕ} (h : code < 16384) :
    (BitVec.ofNat 8 (code >>> 7)).setWidth 32 <<< 16 =
      (BitVec.ofNat 32 code &&& 0x3F80#32) <<< 9 := by
  have h14 : code.testBit 14 = false := Nat.testBit_lt_two_pow (by omega)
  apply BitVec.eq_of_getElem_eq
  intro i hi
  interval_cases i <;> simp [getElem_ofNat, h14] <;> exact fun _ => by decide

theorem lowBits (code : ℕ) :
    (BitVec.ofNat 8 (code &&& 0x7F)).setWidth 32 <<< 8 =
      (BitVec.ofNat 32 code &&& 0x7F#32) <<< 8 := by
  apply BitVec.eq_of_getElem_eq
  intro i hi
  interval_cases i <;> simp [getElem_ofNat] <;> exact fun _ => by decide

/-- An octet that holds a number of at most eight bits. -/
theorem setWidth_ofNat {code : ℕ} (h : code < 256) :
    (BitVec.ofNat 8 code).setWidth 32 = BitVec.ofNat 32 code := by
  apply BitVec.eq_of_toNat_eq
  simp only [BitVec.toNat_setWidth, BitVec.toNat_ofNat]
  omega

/-- The tag that is compared with what was decoded is the one that was written. -/
theorem makeTagId_eq_tagOf (cl fm : Octet) {code : ℕ} (h : code < 16384) :
    makeTagId cl fm code = tagOf (bEncTag (tagByteLen code) cl fm code) := by
  have h31 : (BitVec.setWidth 32 31#8 : BitVec 32) = 31#32 := by decide
  have h80 : (BitVec.setWidth 32 0x80#8 : BitVec 32) = 0x80#32 := by decide
  rw [makeTagId, makeTagIdCode, tagByteLen]
  by_cases h1 : code < 31
  · simp only [h1, if_true, bEncTag, tagOf, longTagOf, tagShift, BitVec.setWidth_or,
      BitVec.shiftLeft_or_distrib, setWidth_ofNat (show code < 256 by omega)]
  · by_cases h2 : code < 128
    · simp only [h1, h2, if_true, if_false, bEncTag, tagOf, longTagOf, tagShift,
        BitVec.setWidth_or, BitVec.shiftLeft_or_distrib, setWidth_ofNat (show code < 256 by omega),
        h31, BitVec.or_assoc]
    · simp only [h1, h2, h, if_true, if_false, bEncTag, tagOf, longTagOf, tagShift,
        BitVec.setWidth_or, BitVec.shiftLeft_or_distrib, h31, h80, Nat.reduceSub, Nat.reduceMul,
        highBits h, lowBits code, BitVec.or_assoc]
      congr 3
      rw [← BitVec.or_assoc, BitVec.or_comm ((BitVec.ofNat 32 code &&& 0x3F80#32) <<< 9)
        (0x80#32 <<< 16), BitVec.or_assoc]

theorem isSubsequent_last {code : ℕ} (h : code < 128) :
    isSubsequent [BitVec.ofNat 8 code] = true := by
  have hall : ∀ c : Fin 128, isSubsequent [BitVec.ofNat 8 c.val] = true := by decide
  exact hall ⟨code, h⟩

/-- Every tag but the one that ends contents is written as an identifier. -/
theorem isIdentifier_bEncTag (cl : TagClass) (isCons : Bool) {code : ℕ} (h : code < 16384)
    (hne : ¬ (cl = .univ ∧ code = 0)) :
    isIdentifier (bEncTag (tagByteLen code) (classOctet cl) (formOctet isCons) code) = true := by
  have hlong : (classOctet cl ||| formOctet isCons ||| 31#8) &&& 0x1F = 0x1F := by
    cases cl <;> cases isCons <;> decide
  rw [tagByteLen]
  by_cases h1 : code < 31
  · rw [if_pos h1, bEncTag]
    have hall : ∀ c : Fin 31, ¬ (cl = .univ ∧ c.val = 0) →
        isIdentifier [classOctet cl ||| formOctet isCons ||| BitVec.ofNat 8 c.val] = true := by
      cases cl <;> cases isCons <;> decide
    exact hall ⟨code, h1⟩ hne
  · by_cases h2 : code < 128
    · rw [if_neg h1, if_pos h2, bEncTag, isIdentifier, if_pos hlong]
      exact isSubsequent_last h2
    · have hmore : ∀ x : Octet, ¬ (0x80#8 ||| x) &&& 0x80 = 0 := by decide
      rw [if_neg h1, if_neg h2, if_pos h, bEncTag, isIdentifier, if_pos hlong, isSubsequent,
        if_neg (hmore _)]
      exact isSubsequent_last (Nat.and_lt_two_pow code (by decide : 0x7F < 2 ^ 7))

namespace BerTag

/-- The form octet of a tag in the encoder, where both forms are allowed as primitive. -/
def isCons (t : BerTag) : Bool := t.form = .cons

/-- The call of `BEncTag` for a tag. -/
def octets (t : BerTag) : List Octet :=
  bEncTag (tagByteLen t.code) (classOctet t.tclass) (formOctet t.isCons) (determineCode t.code)

/-- The comparison of a decoded tag with a tag of the type. -/
def accepts (t : BerTag) (tag1 : AsnTag) : Bool :=
  match t.form with
  | .anyForm =>
      tag1 = makeTagId (classOctet t.tclass) (formOctet false) (determineCode t.code) ||
        tag1 = makeTagId (classOctet t.tclass) (formOctet true) (determineCode t.code)
  | .prim => tag1 = makeTagId (classOctet t.tclass) (formOctet false) (determineCode t.code)
  | .cons => tag1 = makeTagId (classOctet t.tclass) (formOctet true) (determineCode t.code)

/-- A tag whose number is printed in full, and which does not look like the end of contents. -/
structure Printed (t : BerTag) : Prop where
  code_lt : t.code < 10000
  ne_eoc : ¬ (t.tclass = .univ ∧ t.code = 0)

variable {t : BerTag}

theorem Printed.octets_eq (h : t.Printed) :
    t.octets = bEncTag (tagByteLen t.code) (classOctet t.tclass) (formOctet t.isCons) t.code := by
  rw [octets, determineCode_eq h.code_lt]

theorem Printed.isIdentifier_octets (h : t.Printed) : isIdentifier t.octets = true := by
  have hlt := h.code_lt
  rw [h.octets_eq]
  exact isIdentifier_bEncTag t.tclass t.isCons (by omega) h.ne_eoc

theorem Printed.length_octets_le (h : t.Printed) : t.octets.length ≤ 4 := by
  have hlt := h.code_lt
  rw [h.octets_eq, tagByteLen]
  split_ifs <;> simp [bEncTag]

theorem Printed.accepts_tagOf (h : t.Printed) : t.accepts (tagOf t.octets) = true := by
  have hlt := h.code_lt
  rw [h.octets_eq, ← makeTagId_eq_tagOf _ _ (show t.code < 16384 by omega), accepts,
    determineCode_eq hlt, isCons]
  cases hform : t.form with
  | prim => simp
  | cons => simp
  | anyForm => simp

end BerTag

/-! ### Lengths -/

/-- `BEncDefLen`, which `BEncConsLen` is a name of. -/
def bEncDefLen (len : ℕ) : List Octet :=
  if len < 128 then [BitVec.ofNat 8 len]
  else if len < 256 then [0x81, BitVec.ofNat 8 len]
  else if len < 65536 then [0x82, BitVec.ofNat 8 (len >>> 8), BitVec.ofNat 8 len]
  else if len < 16777126 then
    [0x83, BitVec.ofNat 8 (len >>> 16), BitVec.ofNat 8 (len >>> 8), BitVec.ofNat 8 len]
  else
    [0x84, BitVec.ofNat 8 (len >>> 24), BitVec.ofNat 8 (len >>> 16), BitVec.ofNat 8 (len >>> 8),
      BitVec.ofNat 8 len]

/-- `BEncDefLenTo127`. -/
def bEncDefLenTo127 (len : ℕ) : List Octet := [BitVec.ofNat 8 len]

/-- `PrintCxxLenEncodingCode`. -/
def bEncLen (isCons isShort : Bool) (len : ℕ) : List Octet :=
  if isCons then bEncDefLen len
  else if isShort then bEncDefLenTo127 len
  else bEncDefLen len

theorem isLengthOf_bEncDefLen {len : ℕ} (h : len < 2 ^ 32) :
    isLengthOf len (bEncDefLen len) = true := by
  rw [bEncDefLen]
  split_ifs with h1 h2 h3 h4
  · have hmod : (BitVec.ofNat 8 len).toNat = len := by
      rw [BitVec.toNat_ofNat]
      omega
    simp [isLengthOf, hmod, h1]
  all_goals
    simp [isLengthOf, natOfOctets, Nat.shiftRight_eq_div_pow]
    omega

theorem isLengthOf_bEncLen {isCons isShort : Bool} {len : ℕ} (h : len < 2 ^ 32)
    (hshort : isCons = false → isShort = true → len < 128) :
    isLengthOf len (bEncLen isCons isShort len) = true := by
  rw [bEncLen]
  split_ifs with h1 h2
  · exact isLengthOf_bEncDefLen h
  · have hlen := isLengthOf_bEncDefLen h
    rwa [bEncDefLen, if_pos (hshort (Bool.eq_false_iff.mpr h1) h2)] at hlen
  · exact isLengthOf_bEncDefLen h

theorem length_bEncLen_le (isCons isShort : Bool) (len : ℕ) :
    (bEncLen isCons isShort len).length ≤ 9 := by
  rw [bEncLen, bEncDefLen, bEncDefLenTo127]
  split_ifs <;> simp

end Esnacc.Generated
