import Esnacc.Runtime.Json
import Esnacc.Runtime.Strings
import Esnacc.Runtime.Word

/-!
The base64 text of OCTET STRING in JSON. Encoder and decoder are state machines that can
stop behind every octet; each writes to a buffer whose size its caller has computed, and a
write behind the end of the buffer is undefined.
-/

namespace Esnacc

open BitString

namespace Base64

/-- `*plainchar++ = ch` or `*codechar++ = ch`, in a buffer of `size` octets. -/
def put (size : ℕ) (out : List Octet) (ch : Octet) : Except Fault (List Octet) :=
  if out.length < size then .ok (out ++ [ch])
  else .error (.undefinedBehaviour "a write behind the end of the buffer")

/-! ### The encoder -/

inductive EncodeStep
  | A | B | C
  deriving DecidableEq, Repr

/-- `base64_encodestate`. -/
structure EncodeState where
  step : EncodeStep
  result : Octet
  stepcount : ℕ
  deriving DecidableEq, Repr

/-- `base64_init_encodestate`. -/
def initEncodeState : EncodeState := ⟨.A, 0, 0⟩

/-- The text of `encoding`. -/
def encoding : List Octet :=
  ((List.range 26).map fun i => BitVec.ofNat 8 (0x41 + i)) ++
    ((List.range 26).map fun i => BitVec.ofNat 8 (0x61 + i)) ++
    ((List.range 10).map fun i => BitVec.ofNat 8 (0x30 + i)) ++ [0x2B, 0x2F]

/-- `base64_encode_value`. -/
def encodeValue (valueIn : Octet) : Octet :=
  if 63 < valueIn.toNat then 0x3D else encoding.getD valueIn.toNat 0

/-- The loop of `base64_encode_block`. -/
def encodeLoop (size : ℕ) : List Octet → EncodeState → List Octet →
    Except Fault (EncodeState × List Octet)
  | [], s, code => .ok (s, code)
  | fragment :: plain, ⟨.A, _, stepcount⟩, code => do
      let code ← put size code (encodeValue ((fragment &&& 0xFC) >>> 2))
      encodeLoop size plain ⟨.B, (fragment &&& 0x03) <<< 4, stepcount⟩ code
  | fragment :: plain, ⟨.B, result, stepcount⟩, code => do
      let code ← put size code (encodeValue (result ||| ((fragment &&& 0xF0) >>> 4)))
      encodeLoop size plain ⟨.C, (fragment &&& 0x0F) <<< 2, stepcount⟩ code
  | fragment :: plain, ⟨.C, result, stepcount⟩, code => do
      let code ← put size code (encodeValue (result ||| ((fragment &&& 0xC0) >>> 6)))
      let code ← put size code (encodeValue (fragment &&& 0x3F))
      encodeLoop size plain ⟨.A, fragment &&& 0x3F, stepcount + 1⟩ code

/-- `base64_encode_block`: the end of the plain text is found from an `int`. -/
def encodeBlock (size : ℕ) (plaintextIn : List Octet) (lengthIn : ℤ) (s : EncodeState) :
    Except Fault (EncodeState × List Octet) :=
  if lengthIn < 0 then .error (.undefinedBehaviour "the end lies in front of the beginning")
  else encodeLoop size (plaintextIn.take lengthIn.toNat) s []

/-- `base64_encode_blockend`. -/
def encodeBlockEnd (size : ℕ) (s : EncodeState) (code : List Octet) :
    Except Fault (List Octet) :=
  match s.step with
  | .B => do
      let code ← put size code (encodeValue s.result)
      let code ← put size code 0x3D
      put size code 0x3D
  | .C => do
      let code ← put size code (encodeValue s.result)
      put size code 0x3D
  | .A => .ok code

/-! ### The decoder -/

inductive DecodeStep
  | a | b | c | d
  deriving DecidableEq, Repr

/-- `base64_decodestate`: `plainchar` is the octet at the write pointer, of which only a
part has been decoded. -/
structure DecodeState where
  step : DecodeStep
  plainchar : Octet
  deriving DecidableEq, Repr

/-- `base64_init_decodestate`. -/
def initDecodeState : DecodeState := ⟨.a, 0⟩

def decoding : List ℤ :=
  [62, -1, -1, -1, 63, 52, 53, 54, 55, 56, 57, 58, 59, 60, 61, -1, -1, -1, -2, -1, -1, -1,
    0, 1, 2, 3, 4, 5, 6, 7, 8, 9, 10, 11, 12, 13, 14, 15, 16, 17, 18, 19, 20, 21, 22, 23, 24, 25,
    -1, -1, -1, -1, -1, -1, 26, 27, 28, 29, 30, 31, 32, 33, 34, 35, 36, 37, 38, 39, 40, 41, 42,
    43, 44, 45, 46, 47, 48, 49, 50, 51]

/-- `base64_decode_value`: the argument is a `char`, which is signed. -/
def decodeValue (valueIn : Octet) : ℤ :=
  let value := (valueIn - 43).toInt
  if value < 0 ∨ 80 ≤ value then -1 else decoding.getD value.toNat (-1)

/-- The octet at the write pointer is changed. -/
def poke (size : ℕ) (out : List Octet) (ch : Octet) : Except Fault Octet :=
  if out.length < size then .ok ch
  else .error (.undefinedBehaviour "a write behind the end of the buffer")

/-- One character that stands for six bits. Nothing reads the octet behind the last of four
characters before it is written. -/
def decodeFragment (size : ℕ) (fragment : Octet) (s : DecodeState) (plain : List Octet) :
    Except Fault (DecodeState × List Octet) :=
  match s.step with
  | .a => do
      let plainchar ← poke size plain ((fragment &&& 0x3F) <<< 2)
      return (⟨.b, plainchar⟩, plain)
  | .b => do
      let plain ← put size plain (s.plainchar ||| ((fragment &&& 0x30) >>> 4))
      let plainchar ← poke size plain ((fragment &&& 0x0F) <<< 4)
      return (⟨.c, plainchar⟩, plain)
  | .c => do
      let plain ← put size plain (s.plainchar ||| ((fragment &&& 0x3C) >>> 2))
      let plainchar ← poke size plain ((fragment &&& 0x03) <<< 6)
      return (⟨.d, plainchar⟩, plain)
  | .d => do
      let plain ← put size plain (s.plainchar ||| (fragment &&& 0x3F))
      return (⟨.a, 0⟩, plain)

/-- The loops of `base64_decode_block`: what does not stand for six bits is skipped. -/
def decodeLoop (size : ℕ) : List Octet → DecodeState → List Octet →
    Except Fault (DecodeState × List Octet)
  | [], s, plain => .ok (s, plain)
  | codechar :: code, s, plain =>
      if decodeValue codechar < 0 then decodeLoop size code s plain
      else do
        let (s, plain) ← decodeFragment size (BitVec.ofInt 8 (decodeValue codechar)) s plain
        decodeLoop size code s plain

/-- `base64_decode_block`, which begins by writing the pending octet. -/
def decodeBlock (size : ℕ) (codeIn : List Octet) (lengthIn : ℤ) (s : DecodeState) :
    Except Fault (DecodeState × List Octet) :=
  if lengthIn < 0 then .error (.undefinedBehaviour "the end lies in front of the beginning")
  else do
    let plainchar ← poke size [] s.plainchar
    decodeLoop size (codeIn.take lengthIn.toNat) ⟨s.step, plainchar⟩ []

end Base64

namespace AsnOcts

open Base64

/-- `sizeBufferOut`. -/
def sizeBufferOut (sizeDataIn : ℕ) : ℕ := sizeDataIn / 3 * 4 + sizeDataIn % 3 + 3 + 1

/-- What `JEnc` leaves in its buffer. -/
def jEncText (x : AsnOcts) : Except Fault (List Octet) := do
  let size := sizeBufferOut x.mStr.length
  let (s, code) ← encodeBlock size x.mStr (toInt32 x.mStr.length) initEncodeState
  let code ← encodeBlockEnd size s code
  if size < code.length + 1 then
    throw (except "AsnOcts size not withing restricted bounds" .restrictedTypeError)
  else put size code 0

def jEnc (x : AsnOcts) : Except Fault SJson.Value :=
  if x.mStr.length = 0 then SJson.Value.ofCString []
  else do
    let output ← jEncText x
    SJson.Value.ofCString output

/-- What `JDec` makes of a text. -/
def jDecText (str : List Octet) : Except Fault (AsnOcts × Bool) := do
  let r ← decodeBlock (str.length + 1) str (toInt32 str.length) initDecodeState
  return (⟨r.2⟩, true)

/-- The object afterwards, and what the call returns. -/
def jDec (_ : AsnOcts) (b : SJson.Value) : Except Fault (AsnOcts × Bool) :=
  if b.isConvertibleToString then b.asString >>= jDecText else .ok (⟨[]⟩, false)

end AsnOcts

namespace Base64

/-! ### The text -/

/-- The characters for three octets. -/
def group (a b c : Octet) : List Octet :=
  [encodeValue ((a &&& 0xFC) >>> 2), encodeValue (((a &&& 0x03) <<< 4) ||| ((b &&& 0xF0) >>> 4)),
    encodeValue (((b &&& 0x0F) <<< 2) ||| ((c &&& 0xC0) >>> 6)), encodeValue (c &&& 0x3F)]

/-- The base64 text: a last group that is not complete is filled up with zeros and marked. -/
def base64 : List Octet → List Octet
  | [] => []
  | [a] => (group a 0 0).take 2 ++ [0x3D, 0x3D]
  | [a, b] => (group a b 0).take 3 ++ [0x3D]
  | a :: b :: c :: os => group a b c ++ base64 os

theorem length_base64 (os : List Octet) : (base64 os).length = 4 * ((os.length + 2) / 3) := by
  induction os using base64.induct with
  | case1 => rfl
  | case2 a => simp [base64, group]
  | case3 a b => simp [base64, group]
  | case4 a b c os ih =>
      rw [base64, List.length_append, ih]
      simp only [group, List.length_cons, List.length_nil]
      omega

theorem put_eq {size : ℕ} {out : List Octet} (h : out.length < size) (ch : Octet) :
    put size out ch = .ok (out ++ [ch]) := if_pos h

theorem poke_eq {size : ℕ} {out : List Octet} (h : out.length < size) (ch : Octet) :
    poke size out ch = .ok ch := if_pos h

theorem encodeLoop_group {size : ℕ} {code : List Octet} (h : code.length + 4 ≤ size)
    (a b c : Octet) (plain : List Octet) (result : Octet) (stepcount : ℕ) :
    encodeLoop size (a :: b :: c :: plain) ⟨.A, result, stepcount⟩ code =
      encodeLoop size plain ⟨.A, c &&& 0x3F, stepcount + 1⟩ (code ++ group a b c) := by
  simp only [encodeLoop]
  rw [put_eq (by omega)]
  dsimp only [bind, Except.bind]
  rw [put_eq (by rw [List.length_append]; exact (by omega : code.length + 1 < size))]
  dsimp only
  rw [put_eq (by simp only [List.length_append, List.length_singleton]; omega)]
  dsimp only
  rw [put_eq (by simp only [List.length_append, List.length_singleton]; omega)]
  simp only [group, List.append_assoc, List.cons_append, List.nil_append]

/-- The encoder writes the base64 text, and no more than that. -/
theorem encode_eq {size : ℕ} {os code : List Octet}
    (h : code.length + (base64 os).length ≤ size) (result : Octet) (stepcount : ℕ) :
    (encodeLoop size os ⟨.A, result, stepcount⟩ code >>= fun r => encodeBlockEnd size r.1 r.2) =
      .ok (code ++ base64 os) := by
  induction os using base64.induct generalizing code result stepcount with
  | case1 =>
      rw [base64, List.append_nil]
      rfl
  | case2 a =>
      rw [length_base64] at h
      simp only [List.length_cons, List.length_nil] at h
      simp only [encodeLoop, bind, Except.bind]
      rw [put_eq (by omega)]
      simp only [encodeBlockEnd, bind, Except.bind]
      rw [put_eq (by simp only [List.length_append, List.length_singleton]; omega)]
      dsimp only
      rw [put_eq (by simp only [List.length_append, List.length_singleton]; omega)]
      dsimp only
      rw [put_eq (by simp only [List.length_append, List.length_singleton]; omega)]
      simp [base64, group]
  | case3 a b =>
      rw [length_base64] at h
      simp only [List.length_cons, List.length_nil] at h
      simp only [encodeLoop, bind, Except.bind]
      rw [put_eq (by omega)]
      dsimp only
      rw [put_eq (by simp only [List.length_append, List.length_singleton]; omega)]
      simp only [encodeBlockEnd, bind, Except.bind]
      rw [put_eq (by simp only [List.length_append, List.length_singleton]; omega)]
      dsimp only
      rw [put_eq (by simp only [List.length_append, List.length_singleton]; omega)]
      simp [base64, group]
  | case4 a b c os ih =>
      rw [base64, List.length_append] at h
      have hgroup : (group a b c).length = 4 := rfl
      rw [encodeLoop_group (by omega), ih (by rw [List.length_append]; omega), base64,
        List.append_assoc]

/-! ### What the decoder makes of it -/

theorem decodeValue_encodeValue :
    ∀ v : Octet, v.toNat < 64 → decodeValue (encodeValue v) = v.toNat := by
  decide

theorem decodeLoop_encodeValue {v : Octet} (hv : v.toNat < 64) (size : ℕ) (code : List Octet)
    (s : DecodeState) (plain : List Octet) :
    decodeLoop size (encodeValue v :: code) s plain =
      decodeFragment size v s plain >>= fun r => decodeLoop size code r.1 r.2 := by
  have hfragment : BitVec.ofInt 8 (v.toNat : ℤ) = v := by
    rw [BitVec.ofInt_natCast, BitVec.ofNat_toNat, BitVec.setWidth_eq]
  rw [decodeLoop, decodeValue_encodeValue v hv, if_neg (by omega), hfragment]

/-- The six bits of a character. -/
theorem toNat_six (v : Octet) : (v &&& 0x3F).toNat < 64 := by
  rw [BitVec.toNat_and]
  exact Nat.and_lt_two_pow _ (by decide : (0x3F : Octet).toNat < 2 ^ 6)

section Fragment

variable {size : ℕ} {plain : List Octet} (fragment plainchar : Octet)

theorem decodeFragment_a (h : plain.length < size) :
    decodeFragment size fragment ⟨.a, plainchar⟩ plain =
      .ok (⟨.b, (fragment &&& 0x3F) <<< 2⟩, plain) := by
  rw [decodeFragment, poke_eq h]
  rfl

theorem decodeFragment_b (h : plain.length + 1 < size) :
    decodeFragment size fragment ⟨.b, plainchar⟩ plain =
      .ok (⟨.c, (fragment &&& 0x0F) <<< 4⟩,
        plain ++ [plainchar ||| ((fragment &&& 0x30) >>> 4)]) := by
  rw [decodeFragment, put_eq (by omega)]
  dsimp only [bind, Except.bind]
  rw [poke_eq (by rw [List.length_append]; exact h)]
  rfl

theorem decodeFragment_c (h : plain.length + 1 < size) :
    decodeFragment size fragment ⟨.c, plainchar⟩ plain =
      .ok (⟨.d, (fragment &&& 0x03) <<< 6⟩,
        plain ++ [plainchar ||| ((fragment &&& 0x3C) >>> 2)]) := by
  simp only [decodeFragment]
  rw [put_eq (by omega)]
  dsimp only [bind, Except.bind]
  rw [poke_eq (by rw [List.length_append]; exact h)]
  rfl

theorem decodeFragment_d (h : plain.length < size) :
    decodeFragment size fragment ⟨.d, plainchar⟩ plain =
      .ok (⟨.a, 0⟩, plain ++ [plainchar ||| (fragment &&& 0x3F)]) := by
  simp only [decodeFragment]
  rw [put_eq h]
  rfl

end Fragment

/-- The bits of the first octet of a group. -/
theorem first_octet (a b : Octet) :
    ((a &&& 0xFC) >>> 2 &&& 0x3F) <<< 2 |||
      ((((a &&& 0x03) <<< 4) ||| ((b &&& 0xF0) >>> 4)) &&& 0x30) >>> 4 = a := by
  ext i hi
  interval_cases i <;> simp

theorem second_octet (a b c : Octet) :
    ((((a &&& 0x03) <<< 4) ||| ((b &&& 0xF0) >>> 4)) &&& 0x0F) <<< 4 |||
      ((((b &&& 0x0F) <<< 2) ||| ((c &&& 0xC0) >>> 6)) &&& 0x3C) >>> 2 = b := by
  ext i hi
  interval_cases i <;> simp

theorem third_octet (b c : Octet) :
    ((((b &&& 0x0F) <<< 2) ||| ((c &&& 0xC0) >>> 6)) &&& 0x03) <<< 6 |||
      ((c &&& 0x3F) &&& 0x3F) = c := by
  ext i hi
  interval_cases i <;> simp

theorem toNat_first (a : Octet) : ((a &&& 0xFC) >>> 2).toNat < 64 := by
  rw [BitVec.toNat_ushiftRight, Nat.shiftRight_eq_div_pow]
  have := (a &&& 0xFC).isLt
  omega

theorem toNat_second (a b : Octet) :
    (((a &&& 0x03) <<< 4) ||| ((b &&& 0xF0) >>> 4)).toNat < 64 := by
  have hsix : ((a &&& 0x03) <<< 4) ||| ((b &&& 0xF0) >>> 4) =
      (((a &&& 0x03) <<< 4) ||| ((b &&& 0xF0) >>> 4)) &&& 0x3F := by
    ext i hi
    interval_cases i <;> simp
  rw [hsix]
  exact toNat_six _

theorem toNat_third (b c : Octet) :
    (((b &&& 0x0F) <<< 2) ||| ((c &&& 0xC0) >>> 6)).toNat < 64 := by
  have hsix : ((b &&& 0x0F) <<< 2) ||| ((c &&& 0xC0) >>> 6) =
      (((b &&& 0x0F) <<< 2) ||| ((c &&& 0xC0) >>> 6)) &&& 0x3F := by
    ext i hi
    interval_cases i <;> simp
  rw [hsix]
  exact toNat_six _

section Group

variable {size : ℕ} {plain : List Octet} (h : plain.length + 3 ≤ size) (a b c : Octet)
  (code : List Octet) (plainchar : Octet)

include h

/-- Two characters of a group hold its first octet. -/
theorem decodeLoop_two :
    decodeLoop size ((group a b c).take 2 ++ code) ⟨.a, plainchar⟩ plain =
      decodeLoop size code
        ⟨.c, ((((a &&& 0x03) <<< 4) ||| ((b &&& 0xF0) >>> 4)) &&& 0x0F) <<< 4⟩ (plain ++ [a]) := by
  show decodeLoop size (_ :: _ :: code) _ _ = _
  rw [decodeLoop_encodeValue (toNat_first a), decodeFragment_a _ _ (by omega)]
  show decodeLoop size (_ :: code) _ _ = _
  rw [decodeLoop_encodeValue (toNat_second a b),
    decodeFragment_b _ _ (by omega : plain.length + 1 < size), first_octet]
  rfl

theorem decodeLoop_three :
    decodeLoop size ((group a b c).take 3 ++ code) ⟨.a, plainchar⟩ plain =
      decodeLoop size code
        ⟨.d, ((((b &&& 0x0F) <<< 2) ||| ((c &&& 0xC0) >>> 6)) &&& 0x03) <<< 6⟩
        (plain ++ [a, b]) := by
  have hsplit : (group a b c).take 3 ++ code = (group a b c).take 2 ++
      encodeValue (((b &&& 0x0F) <<< 2) ||| ((c &&& 0xC0) >>> 6)) :: code := rfl
  have hlen : (plain ++ [a]).length + 1 < size := by
    rw [List.length_append]
    exact (by omega : plain.length + 2 < size)
  rw [hsplit, decodeLoop_two h, decodeLoop_encodeValue (toNat_third b c),
    decodeFragment_c _ _ hlen, second_octet, List.append_assoc]
  rfl

theorem decodeLoop_group :
    decodeLoop size (group a b c ++ code) ⟨.a, plainchar⟩ plain =
      decodeLoop size code ⟨.a, 0⟩ (plain ++ [a, b, c]) := by
  have hsplit : group a b c ++ code =
      (group a b c).take 3 ++ encodeValue (c &&& 0x3F) :: code := rfl
  have hlen : (plain ++ [a, b]).length < size := by
    rw [List.length_append]
    exact (by omega : plain.length + 2 < size)
  rw [hsplit, decodeLoop_three h, decodeLoop_encodeValue (toNat_six c),
    decodeFragment_d _ _ hlen, third_octet, List.append_assoc]
  rfl

end Group

/-- The padding is skipped. -/
theorem decodeLoop_padding (size : ℕ) (code : List Octet) (s : DecodeState) (plain : List Octet) :
    decodeLoop size (0x3D :: code) s plain = decodeLoop size code s plain := by
  rw [decodeLoop, if_pos (by decide)]

/-- The decoder recovers the octets from their text. -/
theorem decodeLoop_base64 {size : ℕ} {os plain : List Octet}
    (h : plain.length + (base64 os).length < size) (plainchar : Octet) :
    ∃ s, decodeLoop size (base64 os) ⟨.a, plainchar⟩ plain = .ok (s, plain ++ os) := by
  induction os using base64.induct generalizing plain plainchar with
  | case1 => exact ⟨_, by rw [base64, List.append_nil]; rfl⟩
  | case2 a =>
      rw [length_base64, List.length_singleton] at h
      apply Exists.intro
      rw [base64, decodeLoop_two (by omega), decodeLoop_padding, decodeLoop_padding]
      rfl
  | case3 a b =>
      rw [length_base64] at h
      simp only [List.length_cons, List.length_nil] at h
      apply Exists.intro
      rw [base64, decodeLoop_three (by omega), decodeLoop_padding]
      rfl
  | case4 a b c os ih =>
      rw [base64, List.length_append] at h
      have hgroup : (group a b c).length = 4 := rfl
      have hplain : (plain ++ [a, b, c]).length = plain.length + 3 := List.length_append
      obtain ⟨s, hs⟩ := @ih (plain ++ [a, b, c]) (by omega) 0
      refine ⟨s, ?_⟩
      rw [base64, decodeLoop_group (by omega), hs, List.append_assoc]
      rfl

theorem decodeFragment_isOk {size : ℕ} {plain : List Octet} (h : plain.length + 1 < size)
    (fragment : Octet) (s : DecodeState) :
    ∃ r, decodeFragment size fragment s plain = .ok r ∧ r.2.length ≤ plain.length + 1 := by
  have hlen (ch : Octet) : (plain ++ [ch]).length ≤ plain.length + 1 := List.length_append.le
  obtain ⟨step, plainchar⟩ := s
  cases step with
  | a => exact ⟨_, decodeFragment_a _ _ (by omega), Nat.le_succ _⟩
  | b => exact ⟨_, decodeFragment_b _ _ h, hlen _⟩
  | c => exact ⟨_, decodeFragment_c _ _ h, hlen _⟩
  | d => exact ⟨_, decodeFragment_d _ _ (by omega), hlen _⟩

/-- No text makes the decoder leave a buffer that is one octet longer than the text. -/
theorem decodeLoop_isOk {size : ℕ} {code plain : List Octet}
    (h : plain.length + code.length < size) (s : DecodeState) :
    ∃ r, decodeLoop size code s plain = .ok r := by
  induction code generalizing plain s with
  | nil => exact ⟨_, rfl⟩
  | cons codechar code ih =>
      rw [List.length_cons] at h
      rw [decodeLoop]
      split
      · exact ih (by omega) s
      · obtain ⟨r, hr, hlen⟩ := @decodeFragment_isOk size plain (by omega)
          (BitVec.ofInt 8 (decodeValue codechar)) s
        rw [hr]
        exact ih (by omega) r.1

end Base64

namespace AsnOcts

open Base64

/-- The buffer of `JEnc` holds the text and the zero behind it. -/
theorem length_base64_lt (os : List Octet) : (base64 os).length < sizeBufferOut os.length := by
  rw [length_base64, sizeBufferOut]
  omega

theorem encodeBlock_eq (size : ℕ) (os : List Octet) (s : EncodeState) :
    encodeBlock size os os.length s = encodeLoop size os s [] := by
  rw [encodeBlock, if_neg (by omega), Int.toNat_natCast, List.take_length]

theorem decodeBlock_eq {size : ℕ} (hsize : 0 < size) (code : List Octet) (s : DecodeState) :
    decodeBlock size code code.length s = decodeLoop size code s [] := by
  rw [decodeBlock, if_neg (by omega), Int.toNat_natCast, List.take_length, poke_eq hsize]
  rfl

theorem jEncText_eq {os : List Octet} (h : os.length < 2 ^ 31) :
    jEncText ⟨os⟩ = .ok (base64 os ++ [0]) := by
  have hlt := length_base64_lt os
  have hencode : (encodeLoop (sizeBufferOut os.length) os initEncodeState [] >>= fun r =>
      encodeBlockEnd (sizeBufferOut os.length) r.1 r.2) = .ok (base64 os) :=
    encode_eq (by rw [List.length_nil]; omega) 0 0
  rw [jEncText]
  dsimp only
  rw [toInt32_eq (by omega) (by omega), encodeBlock_eq]
  cases hloop : encodeLoop (sizeBufferOut os.length) os initEncodeState [] with
  | error e =>
      rw [hloop] at hencode
      cases hencode
  | ok r =>
      rw [hloop] at hencode
      replace hencode : encodeBlockEnd (sizeBufferOut os.length) r.1 r.2 = .ok (base64 os) :=
        hencode
      dsimp only [bind, Except.bind]
      rw [hencode]
      dsimp only
      rw [if_neg (Nat.not_lt.mpr hlt)]
      exact put_eq hlt 0

theorem encodeValue_ne_zero : ∀ v : Octet, encodeValue v ≠ 0#8 := by decide

theorem ne_zero_of_mem_base64 {os : List Octet} : ∀ ch ∈ base64 os, ch ≠ 0 := by
  induction os using base64.induct with
  | case1 => exact fun ch h => absurd h List.not_mem_nil
  | case2 a => simp [base64, group, encodeValue_ne_zero]
  | case3 a b => simp [base64, group, encodeValue_ne_zero]
  | case4 a b c os ih =>
      rw [base64, List.forall_mem_append]
      exact ⟨by simp [group, encodeValue_ne_zero], ih⟩

theorem jEnc_eq {os : List Octet} (h : os.length < 2 ^ 31) :
    jEnc ⟨os⟩ = SJson.Value.ofString (base64 os) := by
  rcases eq_or_ne os [] with rfl | hne
  · rfl
  · have hcut : SJson.cString (base64 os ++ [0]) = base64 os := by
      rw [SJson.cString, List.takeWhile_append_of_pos]
      · simp
      · simpa using ne_zero_of_mem_base64
    rw [jEnc, if_neg (fun hlen => hne (List.length_eq_zero_iff.mp hlen)), jEncText_eq h]
    show SJson.Value.ofCString _ = _
    rw [SJson.Value.ofCString, hcut]

theorem ok_bind {α β : Type} (a : α) (f : α → Except Fault β) : (Except.ok a >>= f) = f a := rfl

theorem jDecText_eq {str : List Octet} (h : str.length ≤ SJson.maxStringLength) :
    jDecText str = (decodeLoop (str.length + 1) str initDecodeState []).map fun r =>
      (⟨r.2⟩, true) := by
  have hlength : toInt32 str.length = str.length := by
    rw [SJson.maxStringLength] at h
    exact toInt32_eq (by omega) (by omega)
  rw [jDecText, hlength, decodeBlock_eq (Nat.succ_pos _)]
  rfl

/-- The JSON library takes a text of this length, and `JDec` recovers the octets. -/
theorem jDec_jEnc {os : List Octet} (x : AsnOcts)
    (h : 4 * ((os.length + 2) / 3) ≤ SJson.maxStringLength) :
    ∃ v, jEnc ⟨os⟩ = .ok v ∧ jDec x v = .ok (⟨os⟩, true) := by
  have hshort : os.length < 2 ^ 31 := by
    rw [SJson.maxStringLength] at h
    omega
  have hfits : (base64 os).length ≤ SJson.maxStringLength := by rwa [length_base64]
  obtain ⟨s, hs⟩ := @decodeLoop_base64 ((base64 os).length + 1) os []
    (by rw [List.length_nil]; omega) 0
  refine ⟨_, (jEnc_eq hshort).trans (SJson.Value.ofString_eq hfits), ?_⟩
  rw [jDec, SJson.Value.isConvertibleToString, if_pos rfl, SJson.Value.asString, ok_bind,
    jDecText_eq hfits]
  show Except.map _ (decodeLoop ((base64 os).length + 1) (base64 os) ⟨.a, 0⟩ []) = _
  rw [hs]
  rfl

theorem jEnc_thrown {os : List Octet} (h : os.length < 2 ^ 31)
    (hlong : SJson.maxStringLength < 4 * ((os.length + 2) / 3)) :
    ∃ e, jEnc ⟨os⟩ = .error (.thrown e) := by
  have hmod : (base64 os).length % 2 ^ 32 = (base64 os).length := by
    rw [length_base64]
    omega
  have hrefuse : SJson.duplicateAndPrefix (base64 os) =
      .error (SJson.logicError "length too big for prefixing") := by
    rw [SJson.duplicateAndPrefix, dif_neg]
    rw [hmod, length_base64]
    omega
  refine ⟨⟨"length too big for prefixing", .defaultErrorCode⟩, (jEnc_eq h).trans ?_⟩
  rw [SJson.Value.ofString, hrefuse]
  rfl

theorem jDec_isOk (x : AsnOcts) (b : SJson.Value) : ∃ r, jDec x b = .ok r := by
  rw [jDec]
  split
  · next hstring =>
      obtain ⟨str, hstr⟩ := SJson.Value.asString_isSome hstring
      obtain ⟨r, hr⟩ := @decodeLoop_isOk (str.length + 1) str [] (by rw [List.length_nil]; omega)
        initDecodeState
      rw [hstr, ok_bind, jDecText_eq (SJson.Value.length_asString_le hstr), hr]
      exact ⟨(⟨r.2⟩, true), rfl⟩
  · exact ⟨_, rfl⟩

/-- Octets whose text the JSON library takes come back, and longer ones are refused; neither
buffer is ever exceeded. -/
theorem json_roundTrip (x : AsnOcts) (os : List Octet) :
    (4 * ((os.length + 2) / 3) ≤ SJson.maxStringLength →
      ∃ v, jEnc ⟨os⟩ = .ok v ∧ jDec x v = .ok (⟨os⟩, true)) ∧
    (os.length < 2 ^ 31 → SJson.maxStringLength < 4 * ((os.length + 2) / 3) →
      ∃ e, jEnc ⟨os⟩ = .error (.thrown e)) ∧
    (os.length < 2 ^ 31 → ∃ text, jEncText ⟨os⟩ = .ok text) ∧
    ∀ b, ∃ r, jDec x b = .ok r :=
  ⟨jDec_jEnc x, jEnc_thrown, fun h => ⟨_, jEncText_eq h⟩, jDec_isOk x⟩

theorem json_roundTrip_two :
    ∃ v, jEnc ⟨[0x4D, 0xFF]⟩ = .ok v ∧ jDec ⟨[7]⟩ v = .ok (⟨[0x4D, 0xFF]⟩, true) :=
  (json_roundTrip ⟨[7]⟩ [0x4D, 0xFF]).1 (by decide)

/-- The text of these octets is six characters too long for the JSON library. -/
theorem not_json_roundTrip :
    ¬ ∀ (x : AsnOcts) (os : List Octet),
      ∃ v, jEnc ⟨os⟩ = .ok v ∧ jDec x v = .ok (⟨os⟩, true) := by
  intro h
  obtain ⟨v, hv, -⟩ := h ⟨[]⟩ (List.replicate 1610612733 0)
  have hlen : (List.replicate 1610612733 (0 : Octet)).length = 1610612733 := List.length_replicate
  generalize List.replicate 1610612733 (0 : Octet) = os at hv hlen
  obtain ⟨e, he⟩ := @jEnc_thrown os (by omega) (by rw [hlen, SJson.maxStringLength]; omega)
  cases he.symm.trans hv

end AsnOcts

end Esnacc
