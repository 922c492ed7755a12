import Esnacc.Runtime.Base64
import Esnacc.Runtime.Int
import Esnacc.Runtime.Word

/-!
`AsnOptionalParameters` in JSON: an object with one member for each parameter, or an
array of objects with a key and a value. In the object a value carries no type but for
binary data, and is recognized by the kind of the JSON value. The conversion between
wide characters and UTF-8 is done by the C library and is a parameter.
-/

namespace Esnacc

open BitString SJson

/-- `iconv`, which can fail. -/
structure StringConvert where
  utf8ToWide : List Octet → Option (List WChar)
  wideToUTF8 : List WChar → Option (List Octet)

/-- The characters of the `std::wstring`. -/
abbrev UTF8String := List WChar

namespace UTF8String

variable (conv : StringConvert)

/-- `getUTF8`, from the characters in front of the first NUL. -/
def getUTF8 (x : UTF8String) : List Octet :=
  let szWideString := x.takeWhile (· != 0)
  if szWideString = [] then [] else (conv.wideToUTF8 szWideString).getD []

def setUTF8 (strUTF8 : List Octet) : UTF8String :=
  let szUTF8 := cString strUTF8
  if szUTF8 = [] then [] else (conv.utf8ToWide szUTF8).getD []

def jEnc (x : UTF8String) : Except Fault Value := Value.ofCString (getUTF8 conv x)

/-- Nothing when the call returns `false`. -/
def jDec : Value → Option UTF8String
  | .stringValue value => some (setUTF8 conv value.octets)
  | _ => none

end UTF8String

namespace AsnInt

/-- The octets of a `long long`, most significant first. -/
def bigEndian64 (iIn : ℤ) : List Octet :=
  [BitVec.ofInt 8 (iIn >>> (56 : ℕ)), BitVec.ofInt 8 (iIn >>> (48 : ℕ)),
    BitVec.ofInt 8 (iIn >>> (40 : ℕ)), BitVec.ofInt 8 (iIn >>> (32 : ℕ)),
    BitVec.ofInt 8 (iIn >>> (24 : ℕ)), BitVec.ofInt 8 (iIn >>> (16 : ℕ)),
    BitVec.ofInt 8 (iIn >>> (8 : ℕ)), BitVec.ofInt 8 iIn]

/-- `Set(long long)`. -/
def setLongLong (iIn : ℤ) : Except Fault AsnInt := storeDERInteger (bigEndian64 iIn) (0 ≤ iIn)

/-- White space of the C locale. -/
def isSpace (ch : Octet) : Bool := ch = 0x20 || decide (0x09 ≤ ch.toNat ∧ ch.toNat ≤ 0x0D)

/-- `atoll`, which stays within the range of a `long long`. -/
def atoll (str : List Octet) : ℤ :=
  let str := str.dropWhile isSpace
  let digits := if str.head? = some 0x2D ∨ str.head? = some 0x2B then str.tail else str
  let magnitude : ℕ := (digits.takeWhile fun ch => decide (0x30 ≤ ch.toNat ∧ ch.toNat ≤ 0x39)).foldl
    (fun n ch => 10 * n + (ch.toNat - 0x30)) 0
  if str.head? = some 0x2D then max (-2 ^ 63) (-magnitude) else min (2 ^ 63 - 1) magnitude

def jEnc (x : AsnInt) : Except Fault Value := do
  let value ← x.getLongLong
  return .intValue (BitVec.ofInt 64 value)

/-- Nothing when the call returns `false`. -/
def jDec (b : Value) : Except Fault (Option AsnInt) :=
  if b.isInt64 ∨ b.isConvertibleToInt then do
    let value ← b.asInt64
    let x ← setLongLong value
    return some x
  else if b.isConvertibleToString then do
    let str ← b.asString
    let x ← setLongLong (atoll (cString str))
    return some x
  else return none

end AsnInt

/-- The pointer of the chosen alternative is set. -/
inductive AsnOptionalParamChoice
  | stringdata (value : UTF8String)
  | binarydata (value : AsnOcts)
  | integerdata (value : AsnInt)
  deriving DecidableEq

namespace AsnOptionalParamChoice

variable (conv : StringConvert)

def jEnc : AsnOptionalParamChoice → Except Fault Value
  | stringdata value => value.jEnc conv
  | binarydata value => do
      let v ← value.jEnc
      return .objectValue (Value.setMember [] (Value.name "binarydata") v)
  | integerdata value => value.jEnc

/-- The call on a member, and the exception if it returns `false`. -/
def orThrow {α : Type} (member : String) : Option α → Except Fault α
  | some value => .ok value
  | none => .error (invalidTagException ("decode failed: " ++ member))

def jDecString (b : Value) : Except Fault AsnOptionalParamChoice := do
  let value ← orThrow "stringdata" (UTF8String.jDec conv b)
  return stringdata value

def jDecBinary (b : Value) : Except Fault AsnOptionalParamChoice := do
  let r ← AsnOcts.jDec ⟨[]⟩ b
  let value ← orThrow "binarydata" (if r.2 then some r.1 else none)
  return binarydata value

def jDecInteger (b : Value) : Except Fault AsnOptionalParamChoice := do
  let r ← AsnInt.jDec b
  let value ← orThrow "integerdata" r
  return integerdata value

/-- `JDec`, which returns `true` or throws. -/
def jDec (b : Value) : Except Fault AsnOptionalParamChoice :=
  match b with
  | .objectValue members =>
      match Value.find members (Value.name "stringdata") with
      | some v => jDecString conv v
      | none =>
          match Value.find members (Value.name "binarydata") with
          | some v => jDecBinary v
          | none =>
              match Value.find members (Value.name "integerdata") with
              | some v => jDecInteger v
              | none => .error (invalidTagException "no valid choice member")
  | b =>
      if b.isConvertibleToInt then jDecInteger b
      else
        match b with
        | .stringValue _ => jDecString conv b
        | _ => .error (invalidTagException "no valid choice member")

end AsnOptionalParamChoice

structure AsnOptionalParam where
  key : UTF8String
  value : AsnOptionalParamChoice
  deriving DecidableEq

namespace AsnOptionalParam

variable (conv : StringConvert)

/-- An object with the members `key` and `value`. -/
def keyValue (key value : Value) : Value :=
  .objectValue (Value.setMember (Value.setMember [] (Value.name "key") key) (Value.name "value")
    value)

def jEnc (p : AsnOptionalParam) : Except Fault Value := do
  let key ← p.key.jEnc conv
  let value ← p.value.jEnc conv
  return keyValue key value

/-- Nothing when the call returns `false`. -/
def jDec (b : Value) : Except Fault (Option AsnOptionalParam) :=
  match b with
  | .objectValue members =>
      match Value.find members (Value.name "key") with
      | none => .error (invalidTagException "not found: key")
      | some v => do
          let key ← AsnOptionalParamChoice.orThrow "key" (UTF8String.jDec conv v)
          match Value.find members (Value.name "value") with
          | none => throw (invalidTagException "not found: value")
          | some v =>
              let value ← AsnOptionalParamChoice.jDec conv v
              return some ⟨key, value⟩
  | _ => .ok none

end AsnOptionalParam

namespace AsnOptionalParameters

variable (conv : StringConvert)

/-- The loop of `JEnc`, from the last parameter to the first. -/
def jEnc (ps : List AsnOptionalParam) : Except Fault Value := do
  let members ← ps.reverse.foldlM (fun b p => do
    let v ← p.value.jEnc conv
    return Value.setMember b (p.key.getUTF8 conv) v) []
  return .objectValue members

/-- The loop of `JDec` over an array. -/
def jDecArray : List Value → List AsnOptionalParam →
    Except Fault (Option (List AsnOptionalParam))
  | [], ps => .ok (some ps)
  | v :: values, ps => do
      match ← AsnOptionalParam.jDec conv v with
      | none => return none
      | some p => jDecArray values (ps ++ [p])

/-- The loop of `JDec` over the names of the members. -/
def jDecMembers (members : List (List Octet × Value)) : List (List Octet) →
    List AsnOptionalParam → Except Fault (Option (List AsnOptionalParam))
  | [], ps => .ok (some ps)
  | name :: names, ps => do
      let value ← AsnOptionalParamChoice.jDec conv ((Value.find members name).getD .nullValue)
      jDecMembers members names (ps ++ [⟨UTF8String.setUTF8 conv name, value⟩])

/-- The list afterwards, or nothing when the call returns `false`. -/
def jDec (b : Value) : Except Fault (Option (List AsnOptionalParam)) :=
  match b with
  | .arrayValue values => jDecArray conv values []
  | .objectValue members => jDecMembers conv members (Value.getMemberNames members) []
  | _ => .ok none

end AsnOptionalParameters

end Esnacc
