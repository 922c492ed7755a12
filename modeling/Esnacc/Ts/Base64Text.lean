import Mathlib.Data.BitVec
import Mathlib.Tactic.IntervalCases
import Esnacc.Runtime.Word

/-!
Octets as base64 text, `encode64` and `decode64` of TSConverter: what is written has no padding at
its end, and what is read may have. Numbers under a bit operator are words of 32 bits, and what is
stored in a Uint8Array keeps its lowest eight.
-/

namespace Esnacc.Ts

/-- An octet of a Uint8Array. -/
abbrev Byte : Type := BitVec 8

def base64chars : List Char :=
  "ABCDEFGHIJKLMNOPQRSTUVWXYZabcdefghijklmnopqrstuvwxyz0123456789+/".toList

/-- `base64chars[index]`, which is within the alphabet for all that `encode64` asks for. -/
def charOf (index : BitVec 32) : Char := base64chars.getD index.toNat 'A'

/-- `base64chars.indexOf(char)`; -1 for any other character. -/
def indexOf (char : Char) : BitVec 32 :=
  if base64chars.idxOf char < 64 then BitVec.ofNat 32 (base64chars.idxOf char) else -1#32

def word (octet : Byte) : BitVec 32 := octet.setWidth 32

/-- The loop takes three octets at a time; one or two at the end make two or three characters. -/
def encodeChars : List Byte → List Char
  | data1 :: data2 :: data3 :: rest =>
      let chunk := word data1 <<< 16 ||| word data2 <<< 8 ||| word data3
      charOf ((chunk &&& 16515072#32) >>> 18) :: charOf ((chunk &&& 258048#32) >>> 12) ::
        charOf ((chunk &&& 4032#32) >>> 6) :: charOf (chunk &&& 63#32) :: encodeChars rest
  | [data1, data2] =>
      let chunk := word data1 <<< 8 ||| word data2
      [charOf ((chunk &&& 64512#32) >>> 10), charOf ((chunk &&& 1008#32) >>> 4),
        charOf ((chunk &&& 15#32) <<< 2)]
  | [data1] =>
      [charOf ((word data1 &&& 252#32) >>> 2), charOf ((word data1 &&& 3#32) <<< 4)]
  | [] => []

def encode64 (binarydata : List Byte) : String := String.ofList (encodeChars binarydata)

/-- The three octets of a group of four indices. -/
def groupOctets (e1 e2 e3 e4 : BitVec 32) : List Byte :=
  [(e1 <<< 2 ||| e2.sshiftRight 4).setWidth 8,
    ((e2 &&& 15#32) <<< 4 ||| e3.sshiftRight 2).setWidth 8,
    ((e3 &&& 3#32) <<< 6 ||| e4).setWidth 8]

/-- The octets of one character group after the other. `charAt` behind the end gives the empty
string, and its index is 0. -/
def decodeChars : List Char → List Byte
  | c1 :: c2 :: c3 :: c4 :: rest =>
      groupOctets (indexOf c1) (indexOf c2) (indexOf c3) (indexOf c4) ++ decodeChars rest
  | [c1, c2, c3] => groupOctets (indexOf c1) (indexOf c2) (indexOf c3) 0#32
  | [c1, c2] => groupOctets (indexOf c1) (indexOf c2) 0#32 0#32
  | [c1] => groupOctets (indexOf c1) 0#32 0#32 0#32
  | [] => []

/-- Without what is padding, in the order of the text, and the number of padding characters. -/
def withoutPadding (base64data : List Char) : List Char × ℕ :=
  ((base64data.reverse.dropWhile (· == '=')).reverse,
    (base64data.reverse.takeWhile (· == '=')).length)

/-- `none` is the RangeError for a Uint8Array of negative length; octets behind the length of the
array are not stored. -/
def decode64 (base64data : String) : Option (List Byte) :=
  let (chars, paddingchars) := withoutPadding base64data.toList
  if chars.length * 3 + 4 ≤ paddingchars then none
  else some ((decodeChars chars).take ((chars.length * 3 - paddingchars) / 4))

theorem indexOf_charOf : ∀ index : BitVec 6,
    indexOf (charOf (index.setWidth 32)) = index.setWidth 32 := by
  decide +kernel

/-- What is below 64 comes back. -/
theorem indexOf_charOf_of_lt {index : BitVec 32} (h : index.toNat < 64) :
    indexOf (charOf index) = index := by
  have hindex : index = (BitVec.ofNat 6 index.toNat).setWidth 32 := by
    apply BitVec.eq_of_toNat_eq
    rw [BitVec.toNat_setWidth, BitVec.toNat_ofNat, Nat.mod_eq_of_lt h,
      Nat.mod_eq_of_lt index.isLt]
  rw [hindex]
  exact indexOf_charOf _

theorem toNat_and_63 (chunk : BitVec 32) : (chunk &&& 63#32).toNat < 64 := by
  rw [BitVec.toNat_and]
  exact Nat.lt_of_le_of_lt Nat.and_le_right (by decide)

/-- What the masks keep is six bits. -/
theorem toNat_masked (chunk : BitVec 32) {mask : BitVec 32} {n : ℕ}
    (h : mask.toNat / 2 ^ n < 64) : ((chunk &&& mask) >>> n).toNat < 64 := by
  rw [BitVec.toNat_ushiftRight, Nat.shiftRight_eq_div_pow, BitVec.toNat_and]
  exact Nat.lt_of_le_of_lt (Nat.div_le_div_right Nat.and_le_right) h

theorem toNat_shifted (chunk : BitVec 32) {mask : BitVec 32} {n : ℕ}
    (h : mask.toNat * 2 ^ n < 64) : ((chunk &&& mask) <<< n).toNat < 64 := by
  rw [BitVec.toNat_shiftLeft, Nat.shiftLeft_eq]
  refine Nat.lt_of_le_of_lt (Nat.mod_le _ _) (Nat.lt_of_le_of_lt ?_ h)
  rw [BitVec.toNat_and]
  exact Nat.mul_le_mul_right _ Nat.and_le_right

theorem groupOctets_three (a b c : Byte) :
    let chunk := word a <<< 16 ||| word b <<< 8 ||| word c
    groupOctets ((chunk &&& 16515072#32) >>> 18) ((chunk &&& 258048#32) >>> 12)
      ((chunk &&& 4032#32) >>> 6) (chunk &&& 63#32) = [a, b, c] := by
  simp only [groupOctets, word, List.cons.injEq, and_true]
  refine ⟨?_, ?_, ?_⟩
  all_goals
    ext i hi
    interval_cases i <;> simp [BitVec.getElem_sshiftRight]

theorem groupOctets_two (a b : Byte) :
    (groupOctets (((word a <<< 8 ||| word b) &&& 64512#32) >>> 10)
      (((word a <<< 8 ||| word b) &&& 1008#32) >>> 4)
      (((word a <<< 8 ||| word b) &&& 15#32) <<< 2) 0#32).take 2 = [a, b] := by
  simp only [groupOctets, word, List.take_succ_cons, List.take_zero, List.cons.injEq, and_true]
  refine ⟨?_, ?_⟩
  all_goals
    ext i hi
    interval_cases i <;> simp [BitVec.getElem_sshiftRight]

theorem groupOctets_one (a : Byte) :
    (groupOctets ((word a &&& 252#32) >>> 2) ((word a &&& 3#32) <<< 4) 0#32 0#32).take 1 =
      [a] := by
  simp only [groupOctets, word, List.take_succ_cons, List.take_zero, List.cons.injEq, and_true]
  ext i hi
  interval_cases i <;> simp [BitVec.getElem_sshiftRight]

/-- The number of characters, from which the length is worked out again. -/
theorem length_encodeChars : ∀ os : List Byte,
    (encodeChars os).length * 3 / 4 = os.length ∧ (encodeChars os).length % 4 ≠ 1
  | a :: b :: c :: rest => by
      have ih := length_encodeChars rest
      simp only [encodeChars, List.length_cons]
      omega
  | [_, _] => by simp [encodeChars]
  | [_] => by simp [encodeChars]
  | [] => by simp [encodeChars]

theorem take_decodeChars : ∀ os : List Byte,
    (decodeChars (encodeChars os)).take os.length = os
  | a :: b :: c :: rest => by
      simp only [encodeChars, decodeChars]
      rw [indexOf_charOf_of_lt (toNat_masked _ (by decide)),
        indexOf_charOf_of_lt (toNat_masked _ (by decide)),
        indexOf_charOf_of_lt (toNat_masked _ (by decide)),
        indexOf_charOf_of_lt (toNat_and_63 _), groupOctets_three]
      simp [take_decodeChars rest]
  | [a, b] => by
      simp only [encodeChars, decodeChars]
      rw [indexOf_charOf_of_lt (toNat_masked _ (by decide)),
        indexOf_charOf_of_lt (toNat_masked _ (by decide)),
        indexOf_charOf_of_lt (toNat_shifted _ (by decide))]
      exact groupOctets_two a b
  | [a] => by
      simp only [encodeChars, decodeChars]
      rw [indexOf_charOf_of_lt (toNat_masked _ (by decide)),
        indexOf_charOf_of_lt (toNat_shifted _ (by decide))]
      exact groupOctets_one a
  | [] => rfl

theorem charOf_ne_padding (index : BitVec 32) : charOf index ≠ '=' := by
  have hmem : charOf index ∈ base64chars := by
    rw [charOf, List.getD_eq_getElem?_getD]
    cases h : base64chars[index.toNat]? with
    | none => decide
    | some c => exact List.mem_of_getElem? h
  intro h
  rw [h] at hmem
  exact absurd hmem (by decide)

theorem ne_padding_of_mem : ∀ os : List Byte, ∀ c ∈ encodeChars os, c ≠ '='
  | a :: b :: d :: rest => by
      intro c hc
      simp only [encodeChars, List.mem_cons] at hc
      rcases hc with rfl | rfl | rfl | rfl | hc
      · exact charOf_ne_padding _
      · exact charOf_ne_padding _
      · exact charOf_ne_padding _
      · exact charOf_ne_padding _
      · exact ne_padding_of_mem rest c hc
  | [a, b] => by
      intro c hc
      simp only [encodeChars, List.mem_cons, List.not_mem_nil, or_false] at hc
      rcases hc with rfl | rfl | rfl <;> exact charOf_ne_padding _
  | [a] => by
      intro c hc
      simp only [encodeChars, List.mem_cons, List.not_mem_nil, or_false] at hc
      rcases hc with rfl | rfl <;> exact charOf_ne_padding _
  | [] => by simp [encodeChars]

/-- Padding behind a text without padding characters is counted and taken away. -/
theorem withoutPadding_append {chars : List Char} (h : ∀ c ∈ chars, c ≠ '=') (n : ℕ) :
    withoutPadding (chars ++ List.replicate n '=') = (chars, n) := by
  have hpad : ∀ c ∈ List.replicate n '=', (c == '=') = true := by
    intro c hc
    rw [List.eq_of_mem_replicate hc]
    rfl
  have hdrop : chars.reverse.dropWhile (· == '=') = chars.reverse := by
    rw [List.dropWhile_eq_self_iff]
    intro hlen
    have hmem := h _ (List.mem_reverse.mp (List.getElem_mem hlen))
    simpa using hmem
  have htake : chars.reverse.takeWhile (· == '=') = [] := by
    have hsplit := List.takeWhile_append_dropWhile (p := (· == '=')) (l := chars.reverse)
    rw [hdrop] at hsplit
    exact List.append_left_eq_self.mp hsplit
  rw [withoutPadding, List.reverse_append, List.reverse_replicate,
    List.dropWhile_append_of_pos hpad, List.takeWhile_append_of_pos hpad, hdrop, htake,
    List.reverse_reverse, List.append_nil, List.length_replicate]

/-- All octets come back, although the text has no padding. -/
theorem decode64_encode64 (os : List Byte) : decode64 (encode64 os) = some os := by
  have hpad : withoutPadding (encodeChars os) = (encodeChars os, 0) := by
    simpa using withoutPadding_append (ne_padding_of_mem os) 0
  rw [decode64, encode64, String.toList_ofList, hpad]
  simp only [Nat.sub_zero, (length_encodeChars os).1, take_decodeChars]
  rw [if_neg (by omega)]

end Esnacc.Ts
