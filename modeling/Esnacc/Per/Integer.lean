import Esnacc.Per.General
import Esnacc.Per.Range
import Esnacc.Runtime.Int

/-!
Integers under value constraints. `PEnc` and `PDec` each scan the constraint
list for bounds and then take the same one of four forms: unconstrained, fully
constrained, a single value, semi-constrained.
-/

namespace Esnacc

open BitString StreamCodec AsnBufBits

/-- `upperBoundExists`: 0, 1 and 2. -/
inductive UpperBound
  | missing | bounded | single
  deriving DecidableEq, Repr

structure ValueRange where
  lowerBound : ℤ
  upperBound : ℤ
  upperBoundExists : UpperBound
  deriving DecidableEq, Repr

/-- The values a range admits. -/
def ValueRange.Admits (r : ValueRange) (v : ℤ) : Prop :=
  match r.upperBoundExists with
  | .bounded => r.lowerBound ≤ v ∧ v ≤ r.upperBound
  | .single => v = r.lowerBound
  | .missing => r.lowerBound ≤ v

instance (r : ValueRange) (v : ℤ) : Decidable (r.Admits v) := by
  unfold ValueRange.Admits
  split <;> infer_instance

/-- A list of constraints is a union; no constraint admits every value. -/
def Satisfies (valueRanges : List ValueRange) (v : ℤ) : Prop :=
  valueRanges = [] ∨ ∃ r ∈ valueRanges, r.Admits v

/-! ### Bounds -/

structure Bounds where
  lowerBound : ℤ
  upperBound : ℤ
  upperBoundFound : UpperBound
  deriving DecidableEq, Repr

/-- The body of the loop over the constraints. The bounds are kept as `int`. -/
def Bounds.widen (b : Bounds) (r : ValueRange) : Bounds :=
  let lowerBound := if b.lowerBound > r.lowerBound then toInt32 r.lowerBound else b.lowerBound
  let upperBound := if b.upperBound < r.lowerBound then toInt32 r.lowerBound else b.upperBound
  if r.upperBoundExists = .bounded then
    { lowerBound := lowerBound
      upperBound := if upperBound < r.upperBound then toInt32 r.upperBound else upperBound
      upperBoundFound := .bounded }
  else { b with lowerBound := lowerBound, upperBound := upperBound }

/-- The bounds of the constraints `r :: rs`. -/
def findBounds (r : ValueRange) (rs : List ValueRange) : Bounds :=
  let b := (r :: rs).foldl Bounds.widen
    { lowerBound := toInt32 r.lowerBound
      upperBound := toInt32 r.lowerBound
      upperBoundFound := r.upperBoundExists }
  if b.upperBound > b.lowerBound then { b with upperBoundFound := .bounded } else b

namespace AsnInt

/-! ### Encoding -/

/-- `checkConstraints` without a list for the failures: whether it failed. -/
def checkConstraints (valueRanges : List ValueRange) (x : AsnInt) : Except Fault Bool :=
  if 4 < x.mBytes.length ∧ 0 < valueRanges.length then
    .error (except "Integer is out of constraint range" .constraintError)
  else if valueRanges = [] then .ok false
  else do
    let ltemp ← x.getInt
    return ! valueRanges.any fun r => decide (r.Admits ltemp)

/-- `Interpret`: one octet of the contents. -/
def interpret (x : AsnInt) (offset : ℕ) : PerM ℕ := do
  let _ ← PerM.putBits [x.mBytes.getD offset 0] 8
  return 8

def encodeGeneral (x : AsnInt) : PerM ℕ :=
  Esnacc.encodeGeneral (interpretUnits x.interpret) x.mBytes.length

/-- Both constrained encoders drop one leading zero octet. -/
def withoutLeadingZero (bytes : List Octet) : List Octet :=
  if 1 < bytes.length ∧ bytes.headD 0 = 0 then bytes.tail else bytes

def pEncSemiConstrained (x : AsnInt) (lowerBound : ℤ) : PerM ℕ := do
  if 4 < x.mBytes.length then
    throw (except "integer is too big for encoding from offset" .integerError)
  let tempval ← StateT.lift x.getInt
  let tempInt ← StateT.lift (set (toInt32 (tempval - lowerBound)))
  let bytes := withoutLeadingZero tempInt.mBytes
  if 4 < bytes.length then
    throw (except "offset from lower bound too large to be encoded" .integerError)
  encodeGeneral { tempInt with mBytes := bytes }

/-- Zeros in front, when there are more bits to write than `width`. -/
def putLeadingZeros (bytes : List Octet) (width minBitsNeeded : ℕ) : PerM ℕ :=
  if minBitsNeeded > width then PerM.putBits [0, 0, 0, 0] (minBitsNeeded - bytes.length * 8)
  else return 0

/-- The octets behind the first one. -/
def putFurtherOctets (bytes : List Octet) : PerM ℕ :=
  if 1 < bytes.length then PerM.putBits bytes.tail ((bytes.length - 1) * 8) else return 0

/-- All octets, but only the odd bits of the first one. -/
def putOddBits (bytes : List Octet) (minBitsNeeded : ℕ) : PerM ℕ :=
  if minBitsNeeded % 8 = 0 then PerM.putBits bytes (bytes.length * 8)
  else do
    let len ← PerM.putBits [bytes.headD 0 <<< (8 - minBitsNeeded % 8)] (minBitsNeeded % 8)
    let rest ← putFurtherOctets bytes
    return len + rest

/-- The lowest `minBitsNeeded` bits of `bytes`. -/
def putLowBits (bytes : List Octet) (width minBitsNeeded : ℕ) : PerM ℕ := do
  let zeros ← putLeadingZeros bytes width minBitsNeeded
  let len ← putOddBits bytes
    (if minBitsNeeded > width then bytes.length * 8 else minBitsNeeded)
  return zeros + len

/-- An offset of one octet is filled up to two. -/
def putHighOctet (bytes : List Octet) : PerM ℕ :=
  if bytes.length < 2 then PerM.putBits [0] 8 else return 0

/-- The number of bits for the length of an offset. -/
def lengthBits (minBitsNeeded : ℕ) : ℕ :=
  (if minBitsNeeded / 8 % 8 ≠ 0 then minBitsNeeded / 8 + 1 else minBitsNeeded / 8) - 1

/-- The forms of a constrained offset when octets are aligned. -/
def putAligned (bytes : List Octet) (range : ℕ) (minBitsNeeded : ℕ) : PerM ℕ :=
  if range ≤ 255 then
    PerM.putBits [bytes.headD 0 <<< (8 - minBitsNeeded)] minBitsNeeded
  else if range = 256 then do
    let pad ← PerM.octetAlignWrite
    let len ← PerM.putBits [bytes.headD 0] 8
    return pad + len
  else if range < 65536 then do
    let pad ← PerM.octetAlignWrite
    let high ← putHighOctet bytes
    let len ← PerM.putBits bytes (bytes.length * 8)
    return pad + high + len
  else do
    let tempInt2 ← StateT.lift (set (bytes.length - 1))
    let len ← putLowBits (withoutLeadingZero tempInt2.mBytes) (bytes.length * 8)
      (lengthBits minBitsNeeded)
    let len' ← PerM.putBits bytes (bytes.length * 8)
    return len + len'

def pEncFullyConstrained (x : AsnInt) (lowerBound upperBound : ℤ) : PerM ℕ := do
  let range := ((upperBound - lowerBound + 1) % 2 ^ 64).toNat
  if 4 < x.mBytes.length then
    throw (except "decimal string is too big to convert to an integer" .integerError)
  let tempval ← StateT.lift x.getInt
  if tempval < lowerBound ∨ tempval > upperBound then
    throw (except "Integer is out of range" .integerError)
  let tempInt ← StateT.lift (set (toInt32 (tempval - lowerBound)))
  let bytes := withoutLeadingZero tempInt.mBytes
  if range ≤ 0 then
    throw (except "upperBound cannot be smaller than lowerBound" .integerError)
  if 4 < bytes.length then
    throw (except "offset from lower bound too large to be encoded" .integerError)
  if range = 1 then return 0
  let minBits ← StateT.lift (minBitsNeeded (upperBound - lowerBound + 1 - 1))
  let bAlign ← PerM.isAligned
  if bAlign then putAligned bytes range minBits
  else putLowBits bytes (bytes.length * 8) minBits

def pEnc (valueRanges : List ValueRange) (x : AsnInt) : PerM ℕ := do
  let failed ← StateT.lift (x.checkConstraints valueRanges)
  if failed then throw (constraintException "Integer not within constraints")
  match valueRanges with
  | [] => x.encodeGeneral
  | r :: rs =>
      let b := findBounds r rs
      if b.upperBoundFound = .bounded then
        if b.lowerBound ≠ b.upperBound then x.pEncFullyConstrained b.lowerBound b.upperBound
        else return 0
      else if rs = [] ∧ r.upperBoundExists = .single then do
        let value ← StateT.lift x.getInt
        if value ≠ b.lowerBound then
          throw (except "integer does not match singlevalue size constraint" .integerError)
        return 0
      else x.pEncSemiConstrained b.lowerBound

/-! ### Decoding -/

/-- `Deterpret` into the room that `Allocate` has made, which is filled in
order. -/
def deterpret (x : AsnInt) : PerM (AsnInt × ℕ) := do
  let seg ← PerM.getBits 8
  return ({ x with mBytes := x.mBytes ++ [seg.headD 0] }, 8)

/-- `DecodeGeneral` clears the integer first; the machine word stays cleared. -/
def decodeGeneral (_ : AsnInt) (bitsDecoded : ℕ) : PerM (AsnInt × ℕ) :=
  Esnacc.decodeGeneral PerM.octetAlignRead (deterpretUnits deterpret) cleared bitsDecoded

def pDecSemiConstrained (lowerBound : ℤ) (bitsDecoded : ℕ) : PerM (AsnInt × ℕ) := do
  let seg ← PerM.getBits 8
  let mLen := (seg.headD 0).toNat
  if 4 < mLen then throw (except "integer is too big for decoding from offset" .integerError)
  let seg ← PerM.getBits (mLen * 8)
  let x ← StateT.lift (setUnsigned (seg.take mLen))
  let intval ← StateT.lift x.getInt
  let x ← StateT.lift (set (toInt32 (intval + lowerBound)))
  return (x, bitsDecoded + 8 + mLen * 8)

/-- The loop that shifts a segment to the right by the unused bits of its last
octet, each octet taking in the low bits of the one before it. -/
def shiftSegment (oddBits : ℕ) (previous : Octet) : List Octet → List Octet
  | [] => []
  | o :: os => (o >>> (8 - oddBits) ||| previous <<< oddBits) :: shiftSegment oddBits o os

/-- The offset in `minBitsNeeded` bits. -/
def getLowBits (minBitsNeeded : ℕ) : PerM ℤ := do
  let seg ← PerM.getBits minBitsNeeded
  let numBytes := minBitsNeeded / 8
  let oddBits := minBitsNeeded % 8
  if oddBits = 0 then return natOfOctets (seg.take numBytes)
  else return natOfOctets (shiftSegment oddBits 0 (seg.take (numBytes + 1)))

/-- The forms of a constrained offset when octets are aligned, and the number
of bits they took. -/
def getAligned (range : ℕ) (minBitsNeeded : ℕ) : PerM (ℤ × ℕ) :=
  if range ≤ 255 then do
    let seg ← PerM.getBits minBitsNeeded
    return ((seg.headD 0 >>> (8 - minBitsNeeded)).toNat, minBitsNeeded)
  else if range = 256 then do
    let pad ← PerM.octetAlignRead
    let seg ← PerM.getBits 8
    return ((seg.headD 0).toNat, pad + 8)
  else if range < 65536 then do
    let pad ← PerM.octetAlignRead
    let seg ← PerM.getBits 16
    return (natOfOctets (seg.take 2), pad + 16)
  else do
    let lenBits := lengthBits minBitsNeeded
    let seg ← PerM.getBits lenBits
    let numBytes := (seg.headD 0 >>> (8 - lenBits % 8)).toNat + 1
    if 4 < numBytes then throw (except "integer is too big for decoded" .integerError)
    let seg ← PerM.getBits (numBytes * 8)
    return (natOfOctets (seg.take numBytes), lenBits + numBytes * 8)

def getOffset (bAlign : Bool) (range : ℕ) (minBitsNeeded : ℕ) : PerM (ℤ × ℕ) :=
  if bAlign then getAligned range minBitsNeeded
  else do
    let intval ← getLowBits minBitsNeeded
    return (intval, minBitsNeeded)

def pDecFullyConstrained (lowerBound upperBound : ℤ) (bitsDecoded : ℕ) : PerM (AsnInt × ℕ) := do
  let range := ((upperBound - lowerBound + 1) % 2 ^ 64).toNat
  if range = 1 then
    let x ← StateT.lift (set (toInt32 (0 + lowerBound)))
    return (x, bitsDecoded)
  let minBits ← StateT.lift (minBitsNeeded (upperBound - lowerBound + 1 - 1))
  let bAlign ← PerM.isAligned
  let (intval, len) ← getOffset bAlign range minBits
  let x ← StateT.lift (set (toInt32 (intval + lowerBound)))
  return (x, bitsDecoded + len)

/-- Whatever the target held is cleared first. -/
def pDec (valueRanges : List ValueRange) (x : AsnInt) (bitsDecoded : ℕ) : PerM (AsnInt × ℕ) :=
  match valueRanges with
  | [] => x.decodeGeneral bitsDecoded
  | r :: rs =>
      let b := findBounds r rs
      if b.upperBoundFound = .bounded then
        if b.lowerBound ≠ b.upperBound then
          pDecFullyConstrained b.lowerBound b.upperBound bitsDecoded
        else return (cleared, bitsDecoded)
      else if rs = [] ∧ r.upperBoundExists = .single then do
        let x ← StateT.lift (set b.lowerBound)
        return (x, bitsDecoded)
      else pDecSemiConstrained b.lowerBound bitsDecoded

end AsnInt

end Esnacc
