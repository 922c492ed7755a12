import Esnacc.Lib.Utf8
import Esnacc.Runtime.Base64
import Esnacc.Ts.Base64Text

/-!
The base64 text of TSConverter and that of AsnOcts are the same but for the padding, which only
the second one writes and which both of them read.
-/

namespace Esnacc.Ts

/-! ### The alphabets -/

theorem encode_charOf : ∀ index : BitVec 6,
    Utf8.encodeChar (charOf (index.setWidth 32)) =
      [Base64.encodeValue (index.setWidth 8)] := by
  decide +kernel

/-- What is below 64 has the same character on both sides. -/
theorem encode_charOf_of_lt {index : BitVec 32} (h : index.toNat < 64) :
    Utf8.encodeChar (charOf index) = [Base64.encodeValue (index.setWidth 8)] := by
  have hindex : index = (BitVec.ofNat 6 index.toNat).setWidth 32 := by
    apply BitVec.eq_of_toNat_eq
    rw [BitVec.toNat_setWidth, BitVec.toNat_ofNat, Nat.mod_eq_of_lt h,
      Nat.mod_eq_of_lt index.isLt]
  have hwidth : index.setWidth 8 = (BitVec.ofNat 6 index.toNat).setWidth 8 := by
    apply BitVec.eq_of_toNat_eq
    rw [BitVec.toNat_setWidth, BitVec.toNat_setWidth, BitVec.toNat_ofNat, Nat.mod_eq_of_lt h]
  rw [hwidth]
  conv_lhs => rw [hindex]
  exact encode_charOf _

/-! ### The indices of a group -/

theorem indices_three (a b c : Byte) :
    let chunk := word a <<< 16 ||| word b <<< 8 ||| word c
    ((chunk &&& 16515072#32) >>> 18).setWidth 8 = (a &&& 0xFC) >>> 2 ∧
      ((chunk &&& 258048#32) >>> 12).setWidth 8 =
        ((a &&& 0x03) <<< 4) ||| ((b &&& 0xF0) >>> 4) ∧
      ((chunk &&& 4032#32) >>> 6).setWidth 8 = ((b &&& 0x0F) <<< 2) ||| ((c &&& 0xC0) >>> 6) ∧
      (chunk &&& 63#32).setWidth 8 = c &&& 0x3F := by
  simp only [word]
  refine ⟨?_, ?_, ?_, ?_⟩
  all_goals
    ext i hi
    interval_cases i <;> simp

theorem indices_two (a b : Byte) :
    let chunk := word a <<< 8 ||| word b
    ((chunk &&& 64512#32) >>> 10).setWidth 8 = (a &&& 0xFC) >>> 2 ∧
      ((chunk &&& 1008#32) >>> 4).setWidth 8 =
        ((a &&& 0x03) <<< 4) ||| ((b &&& 0xF0) >>> 4) ∧
      ((chunk &&& 15#32) <<< 2).setWidth 8 =
        ((b &&& 0x0F) <<< 2) ||| (((0 : Byte) &&& 0xC0) >>> 6) := by
  simp only [word]
  refine ⟨?_, ?_, ?_⟩
  all_goals
    ext i hi
    interval_cases i <;> simp

theorem indices_one (a : Byte) :
    ((word a &&& 252#32) >>> 2).setWidth 8 = (a &&& 0xFC) >>> 2 ∧
      ((word a &&& 3#32) <<< 4).setWidth 8 =
        ((a &&& 0x03) <<< 4) ||| (((0 : Byte) &&& 0xF0) >>> 4) := by
  simp only [word]
  refine ⟨?_, ?_⟩
  all_goals
    ext i hi
    interval_cases i <;> simp

/-! ### The texts -/

theorem encode_encodeChars_two (a b : Byte) :
    Utf8.encode (encodeChars [a, b]) = (Base64.group a b 0).take 3 := by
  obtain ⟨h1, h2, h3⟩ := indices_two a b
  simp only [encodeChars, Utf8.encode_cons, Utf8.encode_nil]
  rw [encode_charOf_of_lt (toNat_masked _ (by decide)),
    encode_charOf_of_lt (toNat_masked _ (by decide)),
    encode_charOf_of_lt (toNat_shifted _ (by decide)), h1, h2, h3]
  rfl

theorem encode_encodeChars_one (a : Byte) :
    Utf8.encode (encodeChars [a]) = (Base64.group a 0 0).take 2 := by
  obtain ⟨h1, h2⟩ := indices_one a
  simp only [encodeChars, Utf8.encode_cons, Utf8.encode_nil]
  rw [encode_charOf_of_lt (toNat_masked _ (by decide)),
    encode_charOf_of_lt (toNat_shifted _ (by decide)), h1, h2]
  rfl

theorem encode_encodeChars_cons (a b c : Byte) (os : List Byte) :
    Utf8.encode (encodeChars (a :: b :: c :: os)) =
      Base64.group a b c ++ Utf8.encode (encodeChars os) := by
  obtain ⟨h1, h2, h3, h4⟩ := indices_three a b c
  simp only [encodeChars, Utf8.encode_cons]
  rw [encode_charOf_of_lt (toNat_masked _ (by decide)),
    encode_charOf_of_lt (toNat_masked _ (by decide)),
    encode_charOf_of_lt (toNat_masked _ (by decide)),
    encode_charOf_of_lt (toNat_and_63 _), h1, h2, h3, h4]
  rfl

/-- The number of padding characters that fill up the last group. -/
def paddingOf (os : List Byte) : ℕ := (3 - os.length % 3) % 3

/-- The base64 text with its padding. -/
def padded64 (os : List Byte) : String :=
  String.ofList (encodeChars os ++ List.replicate (paddingOf os) '=')

theorem paddingOf_cons (a b c : Byte) (os : List Byte) :
    paddingOf (a :: b :: c :: os) = paddingOf os := by
  simp only [paddingOf, List.length_cons]
  omega

/-- The padded text is the one that AsnOcts writes. -/
theorem encode_padded64 (os : List Byte) :
    Utf8.encode (padded64 os).toList = Base64.base64 os := by
  rw [padded64, String.toList_ofList, Utf8.encode_append]
  induction os using Base64.base64.induct with
  | case1 => rfl
  | case2 a =>
      rw [encode_encodeChars_one]
      rfl
  | case3 a b =>
      rw [encode_encodeChars_two]
      rfl
  | case4 a b c os ih =>
      rw [encode_encodeChars_cons, paddingOf_cons, List.append_assoc, ih]
      rfl

/-- The length that is worked out from a padded text. -/
theorem length_padded : ∀ os : List Byte,
    (encodeChars os).length * 3 = 4 * os.length + paddingOf os
  | a :: b :: c :: rest => by
      have ih := length_padded rest
      rw [paddingOf_cons]
      simp only [encodeChars, List.length_cons]
      omega
  | [_, _] => by simp [encodeChars, paddingOf]
  | [_] => by simp [encodeChars, paddingOf]
  | [] => by simp [encodeChars, paddingOf]

theorem decode64_padded64 (os : List Byte) : decode64 (padded64 os) = some os := by
  have hlength := length_padded os
  have hpadding : paddingOf os < 3 := Nat.mod_lt _ (by decide)
  rw [decode64, padded64, String.toList_ofList, withoutPadding_append (ne_padding_of_mem os)]
  dsimp only
  rw [if_neg (by omega), hlength, Nat.add_sub_cancel, Nat.mul_div_cancel_left _ (by decide),
    take_decodeChars]

end Esnacc.Ts

namespace Esnacc

open BitString

namespace Base64

/-- The decoder does not need the padding. -/
theorem decodeLoop_encodeChars {size : ℕ} {os plain : List Octet}
    (h : plain.length + (Utf8.encode (Ts.encodeChars os)).length < size) (plainchar : Octet) :
    ∃ s, decodeLoop size (Utf8.encode (Ts.encodeChars os)) ⟨.a, plainchar⟩ plain =
      .ok (s, plain ++ os) := by
  induction os using base64.induct generalizing plain plainchar with
  | case1 => exact ⟨_, by rw [List.append_nil]; rfl⟩
  | case2 a =>
      rw [Ts.encode_encodeChars_one] at h ⊢
      have htwo : ((group a 0 0).take 2).length = 2 := rfl
      apply Exists.intro
      rw [← List.append_nil ((group a 0 0).take 2), decodeLoop_two (by omega)]
      rfl
  | case3 a b =>
      rw [Ts.encode_encodeChars_two] at h ⊢
      have hthree : ((group a b 0).take 3).length = 3 := rfl
      apply Exists.intro
      rw [← List.append_nil ((group a b 0).take 3), decodeLoop_three (by omega)]
      rfl
  | case4 a b c os ih =>
      rw [Ts.encode_encodeChars_cons] at h ⊢
      rw [List.length_append] at h
      have hgroup : (group a b c).length = 4 := rfl
      have hplain : (plain ++ [a, b, c]).length = plain.length + 3 := List.length_append
      obtain ⟨s, hs⟩ := @ih (plain ++ [a, b, c]) (by omega) 0
      refine ⟨s, ?_⟩
      rw [decodeLoop_group (by omega), hs, List.append_assoc]
      rfl

end Base64

theorem AsnOcts.jDec_encode64 {os : List Octet} {t : SJson.Text}
    (h : t.octets = Utf8.encode (Ts.encode64 os).toList) (x : AsnOcts) :
    x.jDec (.stringValue t) = .ok (⟨os⟩, true) := by
  rw [Ts.encode64, String.toList_ofList] at h
  obtain ⟨s, hs⟩ := @Base64.decodeLoop_encodeChars (t.octets.length + 1) os []
    (by rw [← h, List.length_nil]; omega) 0
  rw [AsnOcts.jDec, SJson.Value.isConvertibleToString, if_pos rfl, SJson.Value.asString, ok_bind,
    jDecText_eq t.fits]
  rw [← h] at hs
  show Except.map _ (Base64.decodeLoop _ t.octets ⟨.a, 0⟩ []) = _
  rw [hs]
  rfl

namespace Ts

/-- Whatever octets are written on one side come back on the other, with padding and without. -/
theorem base64_agrees (x : List Byte) :
    decode64 (encode64 x) = some x ∧
    (Utf8.encode (padded64 x).toList = Base64.base64 x ∧
      (x.length < 2 ^ 31 → AsnOcts.jEnc ⟨x⟩ = SJson.Value.ofString (Base64.base64 x)) ∧
      decode64 (padded64 x) = some x) ∧
    ∀ (old : AsnOcts) (text : SJson.Text), text.octets = Utf8.encode (encode64 x).toList →
      old.jDec (.stringValue text) = .ok (⟨x⟩, true) :=
  ⟨decode64_encode64 x, ⟨encode_padded64 x, AsnOcts.jEnc_eq, decode64_padded64 x⟩,
    fun old _ h => AsnOcts.jDec_encode64 h old⟩

/-- Two octets: the text is three characters long, and four with its padding. -/
theorem base64_agrees_two :
    decode64 "Tf8=" = some [0x4D, 0xFF] ∧
      AsnOcts.jEnc ⟨[0x4D, 0xFF]⟩ = SJson.Value.ofString (Base64.base64 [0x4D, 0xFF]) ∧
      AsnOcts.jDec ⟨[7]⟩ (.stringValue ⟨[0x54, 0x66, 0x38], by decide⟩) =
        .ok (⟨[0x4D, 0xFF]⟩, true) := by
  have h := base64_agrees [0x4D, 0xFF]
  exact ⟨h.2.1.2.2, h.2.1.2.1 (by decide),
    h.2.2 ⟨[7]⟩ ⟨[0x54, 0x66, 0x38], by decide⟩ (by decide +kernel)⟩

end Ts

end Esnacc
