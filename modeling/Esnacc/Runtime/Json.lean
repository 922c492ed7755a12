import Esnacc.Lib.BitString
import Esnacc.Lib.SortedMap
import Esnacc.Runtime.Exception

/-!
The JSON values that the runtime library encodes to and decodes from. A string is a
sequence of octets whose length the library bounds when it copies it; no modelled type is
encoded as a floating point number, so there is none here.
-/

namespace Esnacc

open BitString

namespace SJson

/-- `unsigned(Value::maxInt) - sizeof(unsigned) - 1U`. -/
def maxStringLength : ℕ := 2147483642

/-- A string that has been copied into a value, with its length in front. -/
structure Text where
  octets : List Octet
  fits : octets.length ≤ maxStringLength
  deriving DecidableEq

/-- Integers have 64 bits. The members of an object are a map from their names. -/
inductive Value
  | nullValue
  | intValue (value : BitVec 64)
  | uintValue (value : BitVec 64)
  | stringValue (value : Text)
  | booleanValue (value : Bool)
  | arrayValue (values : List Value)
  | objectValue (members : List (List Octet × Value))

/-- `std::logic_error`. -/
def logicError (what : String) : Fault := except what .defaultErrorCode

/-- `duplicateAndPrefixStringValue`, which is given the length as an `unsigned`. -/
def duplicateAndPrefix (value : List Octet) : Except Fault Text :=
  if h : value.length % 2 ^ 32 ≤ maxStringLength then
    .ok ⟨value.take (value.length % 2 ^ 32), (List.length_take_le _ _).trans h⟩
  else .error (logicError "length too big for prefixing")

/-- What a C string holds of these octets. -/
def cString (str : List Octet) : List Octet := str.takeWhile (· != 0)

namespace Value

/-- `Value(const String&)`. -/
def ofString (value : List Octet) : Except Fault Value :=
  (duplicateAndPrefix value).map .stringValue

/-- `Value(const char*)`. -/
def ofCString (value : List Octet) : Except Fault Value := ofString (cString value)

/-- The decimal digits of a number. -/
def decimal (n : ℕ) : List Octet :=
  if n = 0 then [0x30] else (Nat.digits 10 n).reverse.map fun d => BitVec.ofNat 8 (0x30 + d)

/-- `isConvertibleTo(stringValue)`. -/
def isConvertibleToString : Value → Bool
  | nullValue | intValue _ | uintValue _ | stringValue _ | booleanValue _ => true
  | arrayValue _ | objectValue _ => false

/-- `asString()`. -/
def asString : Value → Except Fault (List Octet)
  | nullValue => .ok []
  | intValue value =>
      .ok (if value.toInt < 0 then 0x2D :: decimal value.toInt.natAbs
        else decimal value.toInt.natAbs)
  | uintValue value => .ok (decimal value.toNat)
  | stringValue value => .ok value.octets
  | booleanValue true => .ok [0x74, 0x72, 0x75, 0x65]
  | booleanValue false => .ok [0x66, 0x61, 0x6C, 0x73, 0x65]
  | arrayValue _ | objectValue _ => .error (logicError "Type is not convertible to string")

/-! ### Integers -/

def isInt : Value → Bool
  | intValue value => decide (-2 ^ 31 ≤ value.toInt ∧ value.toInt ≤ 2 ^ 31 - 1)
  | uintValue value => decide (value.toNat ≤ 2 ^ 31 - 1)
  | _ => false

def isInt64 : Value → Bool
  | intValue _ => true
  | uintValue value => decide (value.toNat ≤ 2 ^ 63 - 1)
  | _ => false

/-- `isConvertibleTo(intValue)`. -/
def isConvertibleToInt (v : Value) : Bool :=
  v.isInt || match v with
    | booleanValue _ | nullValue => true
    | _ => false

def asInt64 : Value → Except Fault ℤ
  | intValue value => .ok value.toInt
  | uintValue value =>
      if value.toNat ≤ 2 ^ 63 - 1 then .ok value.toNat
      else .error (logicError "LargestUInt out of Int64 range")
  | nullValue => .ok 0
  | booleanValue value => .ok (if value then 1 else 0)
  | stringValue _ | arrayValue _ | objectValue _ =>
      .error (logicError "Value is not convertible to Int64.")

/-! ### Objects -/

/-- The octets of a name that `CZString` refers to. -/
def czString (key : List Octet) : List Octet := key.take (key.length % 2 ^ 32 % 2 ^ 30)

/-- `CZString::operator<` compares the octets, and then the lengths. -/
def memberRank (key : List Octet) : List ℕ := key.map BitVec.toNat

/-- Assigns to `(*this)[key]`. -/
def setMember (members : List (List Octet × Value)) (key : List Octet) (value : Value) :
    List (List Octet × Value) :=
  SortedMap.insert memberRank (czString key) value members

/-- `find`, which `isMember` and the constant `operator[]` call. -/
def find (members : List (List Octet × Value)) (key : List Octet) : Option Value :=
  SortedMap.find memberRank (czString key) members

def getMemberNames (members : List (List Octet × Value)) : List (List Octet) :=
  members.map Prod.fst

/-- The name that is written so in the source. -/
def name (s : String) : List Octet := s.toList.map fun c => BitVec.ofNat 8 c.toNat

theorem memberRank_injective : Function.Injective memberRank :=
  List.map_injective_iff.mpr BitVec.toNat_injective

theorem czString_eq {key : List Octet} (h : key.length < 2 ^ 30) : czString key = key := by
  have hlen : key.length % 2 ^ 32 = key.length := Nat.mod_eq_of_lt (by omega)
  rw [czString, hlen, Nat.mod_eq_of_lt h, List.take_length]

/-! ### Strings -/

theorem length_decimal_le {n k : ℕ} (h : n < 10 ^ k) (hk : 0 < k) : (decimal n).length ≤ k := by
  rw [decimal]
  split
  · exact hk
  · rw [List.length_map, List.length_reverse]
    exact (Nat.digits_length_le_iff (by decide) n).mpr h

/-- What is converted to a string is no longer than a string can be. -/
theorem length_asString_le {v : Value} {str : List Octet} (h : v.asString = .ok str) :
    str.length ≤ maxStringLength := by
  cases v with
  | nullValue => cases h; decide
  | intValue value =>
      have hlt : value.toInt.natAbs < 10 ^ 20 := by
        have hle := value.le_toInt
        have hlt := value.toInt_lt
        norm_num at hle hlt ⊢
        omega
      have hlen := length_decimal_le hlt (by decide)
      cases h
      rw [maxStringLength]
      split
      · rw [List.length_cons]
        omega
      · omega
  | uintValue value =>
      have hlen := length_decimal_le (value.isLt.trans (by norm_num : 2 ^ 64 < 10 ^ 20)) (by decide)
      cases h
      rw [maxStringLength]
      omega
  | stringValue value => cases h; exact value.fits
  | booleanValue value => cases value <;> cases h <;> decide
  | arrayValue _ => cases h
  | objectValue _ => cases h

theorem asString_isSome {v : Value} (h : v.isConvertibleToString) : ∃ str, v.asString = .ok str := by
  cases v with
  | booleanValue value => cases value <;> exact ⟨_, rfl⟩
  | arrayValue _ => cases h
  | objectValue _ => cases h
  | _ => exact ⟨_, rfl⟩

theorem ofString_eq {value : List Octet} (h : value.length ≤ maxStringLength) :
    ofString value = .ok (.stringValue ⟨value, h⟩) := by
  have hlen : value.length % 2 ^ 32 = value.length :=
    Nat.mod_eq_of_lt (h.trans_lt (by decide))
  simp only [ofString, duplicateAndPrefix, hlen, h, dif_pos, List.take_length]
  rfl

/-- A value made from a string holds the beginning of it. -/
theorem ofString_eq_ok {value : List Octet} {v : Value} (h : ofString value = .ok v) :
    ∃ t, v = .stringValue t ∧ t.octets = value.take (value.length % 2 ^ 32) ∧
      value.length % 2 ^ 32 ≤ maxStringLength := by
  rw [ofString, duplicateAndPrefix] at h
  split at h
  · next hlen => exact ⟨_, (Except.ok.inj h).symm, rfl, hlen⟩
  · cases h

theorem cString_eq {str : List Octet} (h : ∀ ch ∈ str, ch ≠ 0) : cString str = str := by
  rw [cString, List.takeWhile_eq_self_iff]
  simpa using h

end Value

end SJson

end Esnacc
