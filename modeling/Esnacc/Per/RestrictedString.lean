import Esnacc.Per.Size

/-!
Restricted character strings. A character is written as its index in the permitted alphabet, or
as it is if the last character of the alphabet fits into the bits of an index. The string is
itself the scratch memory of the encoder: each character is overwritten with the octet that is
written for it.
-/

namespace Esnacc

open BitString AsnBufBits

/-- The table that `PermittedAlphabet` returns: a character for each index. -/
structure Alphabet where
  chars : List Octet
  ne_nil : chars ≠ []
  nodup : chars.Nodup

/-- Reads an entry that the table does not have. -/
def outsideAlphabet : Fault := .undefinedBehaviour "read outside the alphabet"

/-- The loop of `findB2`. -/
def findB2From (B : ℕ) : ℕ → ℕ → ℕ
  | 0, power => 2 ^ power
  | steps + 1, power => if B ≤ 2 ^ power then 2 ^ power else findB2From B steps (power + 1)

/-- The least power of two that is not below `B`. The loop has found it after `B` steps. -/
def findB2 (B : ℕ) : ℕ := findB2From B B 0

namespace Alphabet

variable (a : Alphabet)

/-- The last character; a `char` is signed. -/
def ub : ℤ := (a.chars.getLast a.ne_nil).toInt

/-- The loop is that of all ranges. -/
def numBits : Except Fault ℕ := minBitsNeeded (a.chars.length - 1)

/-- `len`, before it is known whether characters are written as they are. -/
def indexBits (bAligned : Bool) : Except Fault ℕ := do
  let B ← a.numBits
  return if bAligned then findB2 B else B

/-- The loop of `Interpret` over the table, which does not stop at its end. It compares a `char`
with an `unsigned char`. -/
def findChar (seg : Octet) : Except Fault Octet :=
  match a.chars.findIdx? fun ch => decide (ch.toInt = (seg.toNat : ℤ)) with
  | some count => .ok (BitVec.ofNat 8 count)
  | none => .error outsideAlphabet

/-- What `Interpret` makes of a character: the octet it leaves in the string, and the number of
the bits of it that it writes. -/
def interpretChar (bAligned : Bool) (seg : Octet) : Except Fault (Octet × ℕ) := do
  let len ← a.indexBits bAligned
  if a.ub ≤ 2 ^ len - 1 then return (seg, 8)
  else
    let seg ← a.findChar seg
    return (seg <<< (8 - len), len)

end Alphabet

/-- `strlen(c_str())`. -/
def strlen (str : List Octet) : ℕ := (str.takeWhile (· ≠ 0)).length

/-- Whether a size is reported for a constraint on strings. -/
def SizeConstraint.failsFor (c : SizeConstraint) (size : ℕ) : Bool :=
  if c.upperBoundExists = .bounded then decide (c.lowerBound > size ∨ c.upperBound < size)
  else decide (c.lowerBound ≠ size)

namespace AsnString

variable (a : Alphabet)

/-- `checkStringTypPermittedAlpha`: whether a character is not permitted. -/
def checkStringTypPermittedAlpha (str : List Octet) : Bool :=
  ! (str.take (toInt32 str.length).toNat).all a.chars.contains

/-- `checkConstraints` without a list for the failures: whether it failed. -/
def checkConstraints (sizeConstraints : List SizeConstraint) (str : List Octet) : Bool :=
  (sizeConstraints ≠ [] && sizeConstraints.all fun c => c.failsFor (strlen str)) ||
    checkStringTypPermittedAlpha a str

/-- `Interpret`: one of the characters. -/
def interpret (str : List Octet) (offset : ℕ) : PerM ℕ := do
  let bAligned ← PerM.isAligned
  let (seg, len) ← StateT.lift (a.interpretChar bAligned (str.getD offset 0))
  let _ ← PerM.putBits [seg] len
  return len

/-- `Deterpret`: one more character. The table is read without regard to its size. -/
def deterpret (str : List Octet) : PerM (List Octet × ℕ) := do
  let bAligned ← PerM.isAligned
  let bits ← StateT.lift (a.indexBits bAligned)
  let len := if a.ub ≤ 2 ^ bits - 1 then 8 else bits
  let seg ← PerM.getBits len
  let ch := seg.headD 0 >>> (8 - len)
  if a.ub ≤ 2 ^ len - 1 then return (str ++ [ch], len)
  else
    match a.chars[ch.toNat]? with
    | some ch => return (str ++ [ch], len)
    | none => throw outsideAlphabet

/-- What is left of a string that has been encoded: no character is read after it has been
overwritten. -/
def overwritten (bAligned : Bool) (str : List Octet) : Except Fault (List Octet) :=
  str.mapM fun seg => Prod.fst <$> a.interpretChar bAligned seg

def encodeGeneral (str : List Octet) : PerM ℕ :=
  Esnacc.encodeGeneral (interpretUnits (interpret a str)) str.length

def decodeGeneral (bitsDecoded : ℕ) : PerM (List Octet × ℕ) :=
  Esnacc.decodeGeneral PerM.octetAlignRead (deterpretUnits (deterpret a)) [] bitsDecoded

/-! ### Size constraints -/

/-- `(iSCUpperBound * B2) > 16`, computed as `int`. -/
def isLong (b : SizeBounds) : Except Fault Bool := do
  let B ← a.numBits
  let bits := b.iSCUpperBound * findB2 B
  if -2 ^ 31 ≤ bits ∧ bits < 2 ^ 31 then return decide (bits > 16)
  else throw (.undefinedBehaviour "overflow of int")

def alignWriteIfLong (b : SizeBounds) : PerM ℕ := do
  let long ← StateT.lift (isLong a b)
  let bAligned ← PerM.isAligned
  if long ∧ bAligned then PerM.octetAlignWrite else return 0

def alignReadIfLong (b : SizeBounds) : PerM ℕ := do
  let long ← StateT.lift (isLong a b)
  let bAligned ← PerM.isAligned
  if long ∧ bAligned then PerM.octetAlignRead else return 0

/-- The number of the characters, where there is a choice. -/
def putLength (b : SizeBounds) (range : ℤ) (minBitsNeeded size : ℕ) : PerM ℕ :=
  if range > 1 then do
    let pad ← alignWriteIfLong a b
    let len ← putSize (size - b.iSCLowerBound).toNat minBitsNeeded
    return pad + len
  else return 0

def putChars (b : SizeBounds) (str : List Octet) : PerM ℕ := do
  let pad ← alignWriteIfLong a b
  let len ← interpretUnits (interpret a str) 0 str.length
  return pad + len

/-- `EncodeWithSizeConstraint`, once the bounds are found. -/
def encodeWithBounds (b : SizeBounds) (str : List Octet) : PerM ℕ := do
  let range ← StateT.lift b.range
  let minBits ← StateT.lift (minBitsNeeded (range - 1))
  if str.length < b.iSCLowerBound ∨ str.length > b.iSCUpperBound then
    throw (except "String size not withing restricted bounds" .restrictedTypeError)
  let len ← putLength a b range minBits str.length
  let len' ← putChars a b str
  return len + len'

/-- The number of the characters counted from the lower bound, and the number of bits read. -/
def getLength (b : SizeBounds) (range : ℤ) (minBitsNeeded : ℕ) : PerM (ℕ × ℕ) :=
  if range > 1 then do
    let pad ← alignReadIfLong a b
    let (decodeSize, len) ← getSize minBitsNeeded
    return (decodeSize, pad + len)
  else return (0, 0)

def getChars (b : SizeBounds) (decodeSize : ℤ) : PerM (List Octet × ℕ) := do
  let pad ← alignReadIfLong a b
  let (str, len) ← deterpretUnits (deterpret a) decodeSize.toNat []
  return (str, pad + len)

/-- `DecodeWithSizeConstraint`, once the bounds are found. -/
def decodeWithBounds (b : SizeBounds) (bitsDecoded : ℕ) : PerM (List Octet × ℕ) := do
  let range ← StateT.lift b.range
  let minBits ← StateT.lift (minBitsNeeded (range - 1))
  let (decodeSize, len) ← getLength a b range minBits
  if decodeSize + b.iSCLowerBound > b.iSCUpperBound then
    throw (except "String size not withing restricted bounds" .restrictedTypeError)
  let (str, len') ← getChars a b (decodeSize + b.iSCLowerBound)
  return (str, bitsDecoded + len + len')

def encodeContents (sizeConstraints : List SizeConstraint) (str : List Octet) : PerM ℕ :=
  match sizeConstraints with
  | [] => encodeGeneral a str
  | c :: cs => encodeWithBounds a (findSizeConstraintBounds c cs) str

/-- `PEnc`, and the string that it leaves behind. -/
def pEnc (sizeConstraints : List SizeConstraint) (str : List Octet) : PerM (ℕ × List Octet) := do
  if checkConstraints a sizeConstraints str then
    throw (constraintException "String not within constraints")
  let bAligned ← PerM.isAligned
  let len ← encodeContents a sizeConstraints str
  let str' ← StateT.lift (overwritten a bAligned str)
  return (len, str')

/-- `PDec`, which erases the old characters first. -/
def pDec (sizeConstraints : List SizeConstraint) (bitsDecoded : ℕ) : PerM (List Octet × ℕ) :=
  match sizeConstraints with
  | [] => decodeGeneral a bitsDecoded
  | c :: cs => decodeWithBounds a (findSizeConstraintBounds c cs) bitsDecoded

end AsnString

/-! ### Wide strings -/

namespace WideAsnString

/-- `Interpret`: `sizeof(wchar_t)` bits, counted where octets were meant, of the first octet of a
wide character in memory. -/
def interpret (str : List WChar) (offset : ℕ) : PerM ℕ := do
  let _ ← PerM.putBits [(str.getD offset 0).truncate 8] 4
  return 4

/-- `Deterpret`: the two octets of `GetBits(4)` are read as a wide character, which has four. -/
def deterpret (_ : List WChar) : PerM (List WChar × ℕ) := do
  let _ ← PerM.getBits 4
  throw (.undefinedBehaviour "read past the octets of GetBits")

/-- The loop of `checkStringTypPermittedAlpha` from the `count`-th octet of `utf8Form` down: whether
one is not permitted. `count` is the number of wide characters. -/
def checkPermittedAlpha (permittedAlphabet utf8Form : List Octet) : ℕ → Except Fault Bool
  | 0 => .ok false
  | count + 1 =>
      match (utf8Form ++ [0])[count]? with
      | some ch =>
          if ch ∈ permittedAlphabet then checkPermittedAlpha permittedAlphabet utf8Form count
          else .ok true
      | none => .error (.undefinedBehaviour "read past the end of a string")

variable (getUTF8 : List WChar → List Octet) (permittedAlphabet : List Octet)
  (sizeConstraints : List SizeConstraint)

/-- `checkConstraints` without a list for the failures: whether it failed. -/
def checkConstraints (str : List WChar) : Except Fault Bool := do
  let alphafailed ← if permittedAlphabet = [] then pure false
    else checkPermittedAlpha permittedAlphabet (getUTF8 str) (toInt32 str.length).toNat
  return (sizeConstraints ≠ [] && sizeConstraints.all fun c => c.failsFor (getUTF8 str).length) ||
    alphafailed

def pEnc (str : List WChar) : PerM ℕ := do
  let failed ← StateT.lift (checkConstraints getUTF8 permittedAlphabet sizeConstraints str)
  if failed then throw (constraintException "Wide string not within constraints")
  Esnacc.encodeGeneral (interpretUnits (interpret str)) str.length

/-- `PDec`, which erases the old characters first. -/
def pDec (bitsDecoded : ℕ) : PerM (List WChar × ℕ) :=
  Esnacc.decodeGeneral PerM.octetAlignRead (deterpretUnits deterpret) [] bitsDecoded

end WideAsnString

end Esnacc
