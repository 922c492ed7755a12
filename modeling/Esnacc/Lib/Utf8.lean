import Mathlib.Data.BitVec
import Mathlib.Tactic.Linarith

/-!
Texts as octets. A text has a number of UTF-16 units and a number of UTF-8 octets, and the two
agree for texts of ASCII characters only.
-/

namespace Utf8

/-- The octets of a character. -/
def encodeChar (c : Char) : List (BitVec 8) := (String.utf8EncodeChar c).map UInt8.toBitVec

def encode (text : List Char) : List (BitVec 8) := text.flatMap encodeChar

/-- A character outside the basic plane is a pair of surrogates. -/
def unitsChar (c : Char) : ℕ := if c.toNat < 0x10000 then 1 else 2

def units (text : List Char) : ℕ := (text.map unitsChar).sum

def IsAscii (text : List Char) : Prop := ∀ c ∈ text, c.toNat < 128

instance (text : List Char) : Decidable (IsAscii text) :=
  inferInstanceAs (Decidable (∀ c ∈ text, c.toNat < 128))

@[simp] theorem encode_nil : encode [] = [] := rfl

@[simp] theorem encode_cons (c : Char) (text : List Char) :
    encode (c :: text) = encodeChar c ++ encode text := rfl

theorem encode_append (s t : List Char) : encode (s ++ t) = encode s ++ encode t :=
  List.flatMap_append

@[simp] theorem units_nil : units [] = 0 := rfl

@[simp] theorem units_cons (c : Char) (text : List Char) :
    units (c :: text) = unitsChar c + units text := by
  rw [units, List.map_cons, List.sum_cons]
  rfl

theorem length_encodeChar (c : Char) : (encodeChar c).length = c.utf8Size := by
  rw [encodeChar, List.length_map, String.length_utf8EncodeChar]

/-- An ASCII character is the octet of its number. -/
theorem encodeChar_of_ascii {c : Char} (h : c.toNat < 128) :
    encodeChar c = [BitVec.ofNat 8 c.toNat] := by
  have hsize : c.utf8Size = 1 := by
    rw [Char.utf8Size_eq_one_iff, UInt32.le_iff_toNat_le]
    exact Nat.lt_succ_iff.mp h
  rw [encodeChar, String.utf8EncodeChar_eq_singleton hsize]
  rfl

/-- Every other character has more octets than units. -/
theorem unitsChar_le (c : Char) : unitsChar c ≤ (encodeChar c).length ∧
    (unitsChar c = (encodeChar c).length ↔ c.toNat < 128) := by
  have hval : c.toNat = c.val.toNat := rfl
  rw [length_encodeChar, unitsChar, Char.utf8Size]
  simp only [UInt32.le_iff_toNat_le, hval]
  have h1 : (127 : UInt32).toNat = 127 := rfl
  have h2 : (2047 : UInt32).toNat = 2047 := rfl
  have h3 : (65535 : UInt32).toNat = 65535 := rfl
  have e1 : UInt32.ofNatLT 0x7F (by decide) = 127 := rfl
  have e2 : UInt32.ofNatLT 0x7FF (by decide) = 2047 := rfl
  have e3 : UInt32.ofNatLT 0xFFFF (by decide) = 65535 := rfl
  rw [e1, e2, e3, h1, h2, h3]
  split_ifs <;> omega

theorem units_le (text : List Char) : units text ≤ (encode text).length ∧
    (units text = (encode text).length ↔ IsAscii text) := by
  induction text with
  | nil => exact ⟨le_rfl, iff_of_true rfl nofun⟩
  | cons c text ih =>
      have hc := unitsChar_le c
      have hsplit : IsAscii (c :: text) ↔ c.toNat < 128 ∧ IsAscii text := List.forall_mem_cons
      rw [units_cons, encode_cons, List.length_append, hsplit, ← hc.2, ← ih.2]
      omega

theorem toNat_of_isUTF8FirstByte : ∀ octet : BitVec 8,
    (UInt8.ofBitVec octet).IsUTF8FirstByte → octet.toNat < 0x80 ∨ 0xC0 ≤ octet.toNat := by
  decide

/-- The first octet of a character is none of those that go on with one. -/
theorem toNat_head_encodeChar (c : Char) : ∃ first rest, encodeChar c = first :: rest ∧
    (first.toNat < 0x80 ∨ 0xC0 ≤ first.toNat) := by
  have hfirst := @UInt8.isUTF8FirstByte_getElem_zero_utf8EncodeChar c
  cases hchar : String.utf8EncodeChar c with
  | nil =>
      have hlen := String.length_utf8EncodeChar c
      rw [hchar] at hlen
      exact absurd hlen c.utf8Size_pos.ne
  | cons first rest =>
      refine ⟨first.toBitVec, rest.map UInt8.toBitVec, by rw [encodeChar, hchar]; rfl, ?_⟩
      refine toNat_of_isUTF8FirstByte _ ?_
      simpa only [hchar, List.getElem_cons_zero] using hfirst

/-- Only the character of number 0 has an octet 0. -/
theorem zero_notMem_encodeChar {c : Char} (h : c.toNat ≠ 0) : 0 ∉ encodeChar c := by
  have hor : ∀ a : BitVec 8, 0 ≠ a ||| 0x80 ∧ 0 ≠ a ||| 0xC0 ∧ 0 ≠ a ||| 0xE0 ∧
      0 ≠ a ||| 0xF0 := by decide
  rcases c.utf8Size_eq with hsize | hsize | hsize | hsize
  · have hascii : c.toNat < 128 := by
      rw [Char.utf8Size_eq_one_iff, UInt32.le_iff_toNat_le] at hsize
      exact Nat.lt_succ_of_le hsize
    rw [encodeChar_of_ascii hascii, List.mem_singleton]
    intro hzero
    have hnat := congrArg BitVec.toNat hzero
    rw [BitVec.toNat_ofNat, Nat.mod_eq_of_lt (by omega)] at hnat
    exact h hnat.symm
  · rw [encodeChar, String.utf8EncodeChar_eq_cons_cons hsize]
    simp only [List.map_cons, List.map_nil, List.mem_cons, List.not_mem_nil, or_false, not_or]
    exact ⟨(hor _).2.1, (hor _).1⟩
  · rw [encodeChar, String.utf8EncodeChar_eq_cons_cons_cons hsize]
    simp only [List.map_cons, List.map_nil, List.mem_cons, List.not_mem_nil, or_false, not_or]
    exact ⟨(hor _).2.2.1, (hor _).1, (hor _).1⟩
  · rw [encodeChar, String.utf8EncodeChar_eq_cons_cons_cons_cons hsize]
    simp only [List.map_cons, List.map_nil, List.mem_cons, List.not_mem_nil, or_false, not_or]
    exact ⟨(hor _).2.2.2, (hor _).1, (hor _).1, (hor _).1⟩

theorem zero_mem_encode {text : List Char} : 0 ∈ encode text ↔ '\x00' ∈ text := by
  rw [encode, List.mem_flatMap]
  constructor
  · rintro ⟨c, hc, hzero⟩
    have hnat : c.toNat = 0 := by
      by_contra h
      exact zero_notMem_encodeChar h hzero
    have heq : c = '\x00' := Char.ext (UInt32.toNat_inj.mp hnat)
    exact heq ▸ hc
  · exact fun h => ⟨_, h, by decide⟩

/-- The text of octets, if they are the octets of one. -/
def decode (octets : List (BitVec 8)) : Option (List Char) :=
  (ByteArray.utf8Decode? (octets.map UInt8.ofBitVec).toByteArray).map Array.toList

theorem toByteArray_encode (text : List Char) :
    ((encode text).map UInt8.ofBitVec).toByteArray = text.utf8Encode := by
  have hchar (c : Char) : (encodeChar c).map UInt8.ofBitVec = String.utf8EncodeChar c := by
    rw [encodeChar, List.map_map]
    exact List.map_id _
  rw [List.utf8Encode, encode, List.map_flatMap]
  simp only [hchar]

theorem decode_encode (text : List Char) : decode (encode text) = some text := by
  rw [decode, toByteArray_encode, List.utf8Decode?_utf8Encode]
  rfl

theorem encode_injective : Function.Injective encode := by
  intro s t h
  have hs := decode_encode s
  rw [h, decode_encode] at hs
  exact (Option.some.inj hs).symm

/-- Exactly the octets of a text are read. -/
theorem decode_eq_some {octets : List (BitVec 8)} {text : List Char} :
    decode octets = some text ↔ encode text = octets := by
  constructor
  · intro h
    rw [decode, Option.map_eq_some_iff] at h
    obtain ⟨a, ha, rfl⟩ := h
    have hget := @ByteArray.utf8Encode_get_utf8Decode?
      (octets.map UInt8.ofBitVec).toByteArray (by rw [ha]; rfl)
    have hbytes := toByteArray_encode a.toList
    simp only [ha, Option.get_some] at hget
    rw [hget] at hbytes
    exact List.map_injective_iff.mpr (fun _ _ h => congrArg UInt8.toBitVec h)
      (List.toByteArray_inj.mp hbytes)
  · rintro rfl
    exact decode_encode text

end Utf8
