import Esnacc.Per.Integer
import Esnacc.Per.Strings

/-!
Octet strings and lists under size constraints. The number of octets or
elements, counted from the lower bound, is written in the bits that the range
needs, but in one octet and the odd bits at most; both classes carry a copy of
this code.
-/

namespace Esnacc

open BitString StreamCodec AsnBufBits

/-- `upperBoundExists` of a size: 0, 1 and 2. The values do not mean what they
mean for integers. -/
inductive SizeUpperBound
  | single | bounded | missing
  deriving DecidableEq, Repr

/-- The bounds are `unsigned long`. -/
structure SizeConstraint where
  lowerBound : ℕ
  upperBound : ℕ
  upperBoundExists : SizeUpperBound
  deriving DecidableEq, Repr

/-- The sizes a constraint admits. -/
def SizeConstraint.Admits (c : SizeConstraint) (size : ℕ) : Prop :=
  match c.upperBoundExists with
  | .single => size = c.lowerBound
  | .bounded => c.lowerBound ≤ size ∧ size ≤ c.upperBound
  | .missing => c.lowerBound ≤ size

instance (c : SizeConstraint) (size : ℕ) : Decidable (c.Admits size) := by
  unfold SizeConstraint.Admits
  split <;> infer_instance

/-! ### Sizes -/

/-- Eight of the bits of a size, if it has so many. -/
def putSizeOctet (size minBitsNeeded : ℕ) : PerM ℕ :=
  if minBitsNeeded / 8 > 0 then
    PerM.putBits [BitVec.ofNat 8 (size >>> (minBitsNeeded % 8))] 8
  else return 0

def putSize (size minBitsNeeded : ℕ) : PerM ℕ := do
  let len ← putSizeOctet size minBitsNeeded
  let len' ← PerM.putBits [BitVec.ofNat 8 size <<< (8 - minBitsNeeded % 8)] (minBitsNeeded % 8)
  return len + len'

def getSizeOctet (minBitsNeeded : ℕ) : PerM (ℕ × ℕ) :=
  if minBitsNeeded / 8 > 0 then do
    let pStr ← PerM.getBits 8
    return ((pStr.headD 0).toNat, 8)
  else return (0, 0)

/-- The size, and the number of bits read. -/
def getSize (minBitsNeeded : ℕ) : PerM (ℕ × ℕ) := do
  let (decodeSize, n) ← getSizeOctet minBitsNeeded
  let pStr ← PerM.getBits (minBitsNeeded % 8)
  if minBitsNeeded % 8 > 0 then
    return (decodeSize <<< (minBitsNeeded % 8) |||
      (pStr.headD 0 >>> (8 - minBitsNeeded % 8)).toNat, n + minBitsNeeded % 8)
  else return (decodeSize, n)

/-! ### Octet strings -/

structure SizeBounds where
  iSCLowerBound : ℤ
  iSCUpperBound : ℤ
  deriving DecidableEq, Repr

/-- The body of the loop of `FindSizeConstraintBounds`. The bounds are kept as
`int`, and compared as `unsigned`. -/
def SizeBounds.widen (b : SizeBounds) (c : SizeConstraint) : SizeBounds :=
  let upper := if b.iSCUpperBound % 2 ^ 32 < c.lowerBound then toInt32 c.lowerBound
    else b.iSCUpperBound
  { iSCUpperBound :=
      if c.upperBoundExists = .bounded ∧ upper % 2 ^ 32 < c.upperBound then toInt32 c.upperBound
      else upper
    iSCLowerBound :=
      if b.iSCLowerBound % 2 ^ 32 > c.lowerBound then toInt32 c.lowerBound else b.iSCLowerBound }

def findSizeConstraintBounds (c : SizeConstraint) (cs : List SizeConstraint) : SizeBounds :=
  (c :: cs).foldl SizeBounds.widen ⟨toInt32 c.lowerBound, toInt32 c.lowerBound⟩

/-- `((iSCUpperBound - iSCLowerBound) + 1)`, computed as `int`. -/
def SizeBounds.range (b : SizeBounds) : Except Fault ℤ :=
  if -2 ^ 31 ≤ b.iSCUpperBound - b.iSCLowerBound ∧
      b.iSCUpperBound - b.iSCLowerBound + 1 < 2 ^ 31 then
    .ok (b.iSCUpperBound - b.iSCLowerBound + 1)
  else .error (.undefinedBehaviour "overflow of int")

/-- `OctetAlignWrite` where the code asks for it, for the shortest strings. -/
def alignWriteIfShort (iSCUpperBound : ℤ) : PerM ℕ := do
  let bAlign ← PerM.isAligned
  if iSCUpperBound ≤ 2 ∧ bAlign then PerM.octetAlignWrite else return 0

def alignReadIfShort (iSCUpperBound : ℤ) : PerM ℕ := do
  let bAlign ← PerM.isAligned
  if iSCUpperBound ≤ 2 ∧ bAlign then PerM.octetAlignRead else return 0

namespace AsnOcts

/-- The size of the contents, where there is a choice. -/
def putLength (b : SizeBounds) (range : ℤ) (minBitsNeeded size : ℕ) : PerM ℕ :=
  if range > 1 then do
    let pad ← alignWriteIfShort b.iSCUpperBound
    let len ← putSize (size - b.iSCLowerBound).toNat minBitsNeeded
    return pad + len
  else return 0

def putContents (x : AsnOcts) (b : SizeBounds) : PerM ℕ :=
  if b.iSCUpperBound > 0 then do
    let pad ← alignWriteIfShort b.iSCUpperBound
    let len ← PerM.putBits x.mStr (x.mStr.length * 8)
    return pad + len
  else return 0

/-- `EncodeWithSizeConstraint`, once the bounds are found. -/
def encodeWithBounds (b : SizeBounds) (x : AsnOcts) : PerM ℕ := do
  let range ← StateT.lift b.range
  let minBits ← StateT.lift (minBitsNeeded (range - 1))
  if x.mStr.length < b.iSCLowerBound ∨ x.mStr.length > b.iSCUpperBound then
    throw (except "AsnOcts size not withing restricted bounds" .restrictedTypeError)
  let len ← putLength b range minBits x.mStr.length
  let len' ← x.putContents b
  return len + len'

def encodeWithSizeConstraint (c : SizeConstraint) (cs : List SizeConstraint) (x : AsnOcts) :
    PerM ℕ := x.encodeWithBounds (findSizeConstraintBounds c cs)

/-- The size counted from the lower bound, and the number of bits read. -/
def getLength (b : SizeBounds) (range : ℤ) (minBitsNeeded : ℕ) : PerM (ℕ × ℕ) :=
  if range > 1 then do
    let pad ← alignReadIfShort b.iSCUpperBound
    let (decodeSize, len) ← getSize minBitsNeeded
    return (decodeSize, pad + len)
  else return (0, 0)

def getContents (b : SizeBounds) (decodeSize : ℤ) : PerM (AsnOcts × ℕ) :=
  if b.iSCUpperBound > 0 then do
    let pad ← alignReadIfShort b.iSCUpperBound
    let seg ← PerM.getBits (decodeSize * 8 % 2 ^ 64).toNat
    return (⟨seg.take decodeSize.toNat⟩, pad + (decodeSize * 8 % 2 ^ 64).toNat)
  else return (⟨[]⟩, 0)

/-- `DecodeWithSizeConstraint`, once the bounds are found. -/
def decodeWithBounds (b : SizeBounds) (bitsDecoded : ℕ) : PerM (AsnOcts × ℕ) := do
  let range ← StateT.lift b.range
  let minBits ← StateT.lift (minBitsNeeded (range - 1))
  let (decodeSize, len) ← getLength b range minBits
  if decodeSize + b.iSCLowerBound > b.iSCUpperBound then
    throw (except "String size not withing restricted bounds" .restrictedTypeError)
  let (x, len') ← getContents b (decodeSize + b.iSCLowerBound)
  return (x, bitsDecoded + len + len')

/-- The target is cleared before anything is read. -/
def decodeWithSizeConstraint (c : SizeConstraint) (cs : List SizeConstraint) (_ : AsnOcts)
    (bitsDecoded : ℕ) : PerM (AsnOcts × ℕ) :=
  decodeWithBounds (findSizeConstraintBounds c cs) bitsDecoded

def pEnc (sizeConstraints : List SizeConstraint) (x : AsnOcts) : PerM ℕ :=
  match sizeConstraints with
  | [] => x.encodeGeneral
  | c :: cs => x.encodeWithSizeConstraint c cs

def pDec (sizeConstraints : List SizeConstraint) (x : AsnOcts) (bitsDecoded : ℕ) :
    PerM (AsnOcts × ℕ) :=
  match sizeConstraints with
  | [] => x.decodeGeneral bitsDecoded
  | c :: cs => x.decodeWithSizeConstraint c cs bitsDecoded

end AsnOcts

/-! ### Lists -/

/-- `AsnInt(val)`. -/
def AsnInt.ofInt (val : ℤ) : Except Fault AsnInt := if val = 0 then .ok ⟨0, [0]⟩ else AsnInt.set val

namespace AsnList

variable {T : Type} (pEncElement : T → PerM ℕ) (pDecElement : ℕ → PerM (T × ℕ))

/-- The loop over the elements. -/
def encodeElements : List T → PerM ℕ
  | [] => return 0
  | x :: xs => do
      let len ← pEncElement x
      let rest ← encodeElements xs
      return len + rest

/-- Appends `n` elements, each decoded into a new one. -/
def decodeElements : ℕ → List T → ℕ → PerM (List T × ℕ)
  | 0, xs, bitsDecoded => return (xs, bitsDecoded)
  | n + 1, xs, bitsDecoded => do
      let (x, bitsDecoded) ← pDecElement bitsDecoded
      decodeElements n (xs ++ [x]) bitsDecoded

/-- `for (int i = 0; i < n; i++)` with `n` as `long`. -/
def decodeWhileInt (n : ℤ) (bitsDecoded : ℕ) : PerM (List T × ℕ) := do
  let res ← decodeElements pDecElement (min n (2 ^ 31)).toNat [] bitsDecoded
  if 2 ^ 31 ≤ n then throw (.undefinedBehaviour "overflow of int")
  return res

/-- `for (unsigned int i = 0; i < n; i++)` with `n` as `unsigned long`. The
loop has no end where `n` is beyond `unsigned int`. -/
def decodeWhileUnsigned (n : ℕ) (bitsDecoded : ℕ) : PerM (List T × ℕ) := do
  let res ← decodeElements pDecElement (min n (2 ^ 32)) [] bitsDecoded
  if 2 ^ 32 ≤ n then throw (memoryException "std::bad_alloc")
  return res

/-- `Interpret`: one of the elements. -/
def interpret (xs : List T) (offset : ℕ) : PerM ℕ :=
  match xs[offset]? with
  | some x => pEncElement x
  | none => throw (except "Null element found in List" .defaultErrorCode)

/-- The number of elements in a range, between octet boundaries. -/
def putAlignedSize (size minBitsNeeded : ℕ) : PerM ℕ := do
  let pad ← PerM.octetAlignWrite
  let len ← putSize size minBitsNeeded
  let pad' ← PerM.octetAlignWrite
  return pad + len + pad'

def getAlignedSize (minBitsNeeded : ℕ) : PerM (ℕ × ℕ) := do
  let pad ← PerM.octetAlignRead
  let (decodeSize, len) ← getSize minBitsNeeded
  let pad' ← PerM.octetAlignRead
  return (decodeSize, pad + len + pad')

/-- The number of elements without an upper bound, as an integer. Its bits are
left out of the count. -/
def putAlignedInt (listLen : AsnInt) : PerM ℕ := do
  let pad ← PerM.octetAlignWrite
  let _ ← listLen.pEnc []
  let pad' ← PerM.octetAlignWrite
  return pad + pad'

def getAlignedInt (bitsDecoded : ℕ) : PerM (AsnInt × ℕ) := do
  let pad ← PerM.octetAlignRead
  let (listLen, bitsDecoded) ← AsnInt.pDec [] ⟨0, [0]⟩ (bitsDecoded + pad)
  let pad' ← PerM.octetAlignRead
  return (listLen, bitsDecoded + pad')

/-- What stands in front of the elements. -/
def putCount (c : SizeConstraint) (xs : List T) : PerM ℕ :=
  match c.upperBoundExists with
  | .single => do
      if xs.length ≠ c.lowerBound % 2 ^ 32 then
        throw (except "Number of elements in AsnList does not match singlevalue constraint"
          .encodeError)
      encodeElements pEncElement xs
  | .bounded => do
      if xs.length < c.lowerBound ∨ xs.length > c.upperBound then
        throw (except "Number of elements in AsnList is not within the size constraint"
          .encodeError)
      let minBits ← StateT.lift (minBitsNeeded (toInt64 (c.upperBound - c.lowerBound)))
      putAlignedSize (xs.length - c.lowerBound) minBits
  | .missing => do
      if xs.length < c.lowerBound then
        throw (except "Number of elements in AsnList is below the minimum size constraint"
          .encodeError)
      let listLen ← StateT.lift (AsnInt.ofInt (toInt32 (xs.length - c.lowerBound)))
      putAlignedInt listLen

/-- `lEncLen` of a list is the one of `PERGeneral`, which is zero. -/
def pEnc (sizeConstraint : Option SizeConstraint) (xs : List T) : PerM ℕ :=
  match sizeConstraint with
  | none => encodeGeneral (interpretUnits (interpret pEncElement xs)) 0
  | some c => do
      let sum ← putCount pEncElement c xs
      let len ← encodeElements pEncElement xs
      return sum + len

def deterpret (xs : List T) : PerM (List T × ℕ) := do
  let (x, len) ← pDecElement 0
  return (xs ++ [x], len)

/-- What the target held is removed first. -/
def pDec (sizeConstraint : Option SizeConstraint) (_ : List T) (bitsDecoded : ℕ) :
    PerM (List T × ℕ) :=
  match sizeConstraint with
  | none => decodeGeneral PerM.octetAlignRead (deterpretUnits (deterpret pDecElement)) []
      bitsDecoded
  | some c =>
      match c.upperBoundExists with
      | .single => decodeWhileUnsigned pDecElement c.lowerBound bitsDecoded
      | .bounded => do
          let minBits ← StateT.lift (minBitsNeeded (toInt64 (c.upperBound - c.lowerBound)))
          let (decodeSize, len) ← getAlignedSize minBits
          decodeWhileInt pDecElement (toInt64 (decodeSize + c.lowerBound)) (bitsDecoded + len)
      | .missing => do
          let (listLen, bitsDecoded) ← getAlignedInt bitsDecoded
          let val ← StateT.lift listLen.getInt
          decodeWhileInt pDecElement (toInt32 (val + c.lowerBound)) bitsDecoded

end AsnList

end Esnacc
