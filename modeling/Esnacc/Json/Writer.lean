import Esnacc.Lib.Utf8
import Esnacc.Runtime.Json

/-!
The writer of JSON texts, `FastWriter`, as the ROSE layer sets it up: no placeholder is dropped
and the text is all ASCII. What the C library prints of a double and what a stream reads of a
text are parameters.
-/

namespace Esnacc.SJson

open BitString

/-- The doubles, as far as the writer and the reader ask the C library for them. -/
structure Doubles (ρ : Type) where
  isfinite : ρ → Bool
  isnan : ρ → Bool
  isinf : ρ → Bool
  /-- `value < 0`. -/
  isNegative : ρ → Bool
  /-- What `%.17g` prints. -/
  sprintf : ρ → List Octet
  /-- Whether `is >> value` succeeds, and the value it leaves. -/
  extract : List Octet → Bool × ρ
  max : ρ
  lowest : ρ
  infinity : ρ
  minusInfinity : ρ

/-- A value of any type. -/
inductive Node (ρ : Type)
  | nullValue
  | intValue (value : BitVec 64)
  | uintValue (value : BitVec 64)
  | realValue (value : ρ)
  | stringValue (value : Text)
  | booleanValue (value : Bool)
  | arrayValue (values : List (Node ρ))
  | objectValue (members : List (List Octet × Node ρ))

/-! ### Strings -/

def requiresEscaping (c : Octet) : Bool := c = 0x5C ∨ c = 0x22 ∨ c.toNat < 0x20 ∨ 0x7F < c.toNat

def doesAnyCharRequireEscaping (s : List Octet) : Bool := s.any requiresEscaping

/-- The code point that begins with an octet, and how many octets behind it belong to it. -/
def utf8ToCodepoint (first : Octet) (rest : List Octet) : ℕ × ℕ :=
  let firstByte := first.toNat
  if firstByte < 0x80 then (firstByte, 0)
  else if firstByte < 0xE0 then
    match rest with
    | s1 :: _ =>
        let calculated := firstByte % 0x20 * 0x40 + s1.toNat % 0x40
        (if calculated < 0x80 then 0xFFFD else calculated, 1)
    | _ => (0xFFFD, 0)
  else if firstByte < 0xF0 then
    match rest with
    | s1 :: s2 :: _ =>
        let calculated := firstByte % 0x10 * 0x1000 + s1.toNat % 0x40 * 0x40 + s2.toNat % 0x40
        (if (0xD800 ≤ calculated ∧ calculated ≤ 0xDFFF) ∨ calculated < 0x800 then 0xFFFD
          else calculated, 2)
    | _ => (0xFFFD, 0)
  else if firstByte < 0xF8 then
    match rest with
    | s1 :: s2 :: s3 :: _ =>
        let calculated := firstByte % 0x08 * 0x40000 + s1.toNat % 0x40 * 0x1000 +
          s2.toNat % 0x40 * 0x40 + s3.toNat % 0x40
        (if calculated < 0x10000 then 0xFFFD else calculated, 3)
    | _ => (0xFFFD, 0)
  else (0xFFFD, 0)

def hexDigit (d : ℕ) : Octet := BitVec.ofNat 8 (if d < 10 then 0x30 + d else 0x57 + d)

def toHex16Bit (x : ℕ) : List Octet :=
  [hexDigit (x / 0x1000 % 16), hexDigit (x / 0x100 % 16), hexDigit (x / 0x10 % 16),
    hexDigit (x % 16)]

def hexEscape (ch : ℕ) : List Octet := 0x5C :: 0x75 :: toHex16Bit ch

/-- The letter behind the backslash, for what has one. -/
def escapeLetter (c : Octet) : Option Octet :=
  if c = 0x22 then some 0x22
  else if c = 0x5C then some 0x5C
  else if c = 0x08 then some 0x62
  else if c = 0x0C then some 0x66
  else if c = 0x0A then some 0x6E
  else if c = 0x0D then some 0x72
  else if c = 0x09 then some 0x74
  else none

/-- A code point beyond the basic plane is a pair of surrogates. -/
def codepointText (codepoint : ℕ) : List Octet :=
  if codepoint < 0x20 then hexEscape codepoint
  else if codepoint < 0x80 then [BitVec.ofNat 8 codepoint]
  else if codepoint < 0x10000 then hexEscape codepoint
  else hexEscape (0xD800 + (codepoint - 0x10000) / 0x400 % 0x400) ++
    hexEscape (0xDC00 + (codepoint - 0x10000) % 0x400)

/-- What is written for an octet, and how many octets behind it this stands for too. -/
def escape (c : Octet) (rest : List Octet) : List Octet × ℕ :=
  match escapeLetter c with
  | some letter => ([0x5C, letter], 0)
  | none => (codepointText (utf8ToCodepoint c rest).1, (utf8ToCodepoint c rest).2)

/-- The loop over the octets, with a pass for each at most. -/
def escapeLoop : ℕ → List Octet → List Octet
  | _, [] => []
  | 0, _ :: _ => []
  | fuel + 1, c :: rest =>
      (escape c rest).1 ++ escapeLoop fuel (rest.drop (escape c rest).2)

/-- `valueToQuotedStringN`. What needs no escape is taken for a C string. -/
def valueToQuotedString (value : List Octet) : List Octet :=
  if doesAnyCharRequireEscaping value then 0x22 :: (escapeLoop value.length value ++ [0x22])
  else 0x22 :: (cString value ++ [0x22])

/-! ### Numbers -/

/-- `valueToString(LargestInt)`. -/
def intToString (value : BitVec 64) : List Octet :=
  if value.toInt < 0 then 0x2D :: Value.decimal value.toInt.natAbs
  else Value.decimal value.toInt.natAbs

/-- `valueToString(LargestUInt)`. -/
def uintToString (value : BitVec 64) : List Octet := Value.decimal value.toNat

variable {ρ : Type} (D : Doubles ρ)

def fixNumericLocale (buffer : List Octet) : List Octet :=
  buffer.map fun c => if c = 0x2C then 0x2E else c

/-- `valueToString(double)`, with 17 significant digits and no special floats. -/
def realToString (value : ρ) : List Octet :=
  if D.isfinite value = false then
    if D.isnan value then Value.name "null"
    else if D.isNegative value then Value.name "-1e+9999"
    else Value.name "1e+9999"
  else
    let buffer := fixNumericLocale (D.sprintf value)
    if buffer.any fun c => c = 0x2E ∨ c = 0x65 then buffer else buffer ++ Value.name ".0"

/-! ### Values -/

def separator (first : Bool) : List Octet := if first then [] else [0x2C]

mutual

def writeValue : Node ρ → List Octet
  | .nullValue => Value.name "null"
  | .intValue value => intToString value
  | .uintValue value => uintToString value
  | .realValue value => realToString D value
  | .stringValue value => valueToQuotedString value.octets
  | .booleanValue value => if value then Value.name "true" else Value.name "false"
  | .arrayValue values => 0x5B :: (writeElements true values ++ [0x5D])
  | .objectValue members => 0x7B :: (writeMembers true members ++ [0x7D])

def writeElements (first : Bool) : List (Node ρ) → List Octet
  | [] => []
  | value :: values => separator first ++ (writeValue value ++ writeElements false values)

def writeMembers (first : Bool) : List (List Octet × Node ρ) → List Octet
  | [] => []
  | (name, value) :: members =>
      separator first ++ (valueToQuotedString name ++
        (0x3A :: (writeValue value ++ writeMembers false members)))

end

/-- `FastWriter::write`. -/
def write (root : Node ρ) : List Octet := writeValue D root ++ [0x0A]

end Esnacc.SJson
