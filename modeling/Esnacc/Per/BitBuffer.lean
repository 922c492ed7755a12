import Esnacc.Lib.BitString
import Esnacc.Runtime.Exception

/-!
The bit buffer of the packed encoding rules. Octets pass through a
`std::stringbuf`; the writer and the reader each keep one partial octet in
front of it. `iWriteBitPos` counts the bits of the write octet that are still
free, `iReadBitPos` the bits of the read octet that are already consumed, and
both are 8 when there is no partial octet. The second cells of the two
character buffers are scratch and are local values here.
-/

namespace Esnacc

open BitString

/-- C++ `unsigned long` subtraction: it wraps below zero. -/
def subUlong (a b : ℕ) : ℕ := if b ≤ a then a - b else 2 ^ 64 + a - b

theorem subUlong_of_le {a b : ℕ} (h : b ≤ a) : subUlong a b = a - b := if_pos h

/-- `pbuf` holds the octets of the stream buffer from its get position on. The
counters only shrink by `subUlong`; their growth is bounded by the memory that
holds the bits. -/
structure AsnBufBits where
  pbuf : List Octet
  bAlign : Bool
  ucWriteCharBuf : Octet
  iWriteBitPos : ℕ
  ucReadCharBuf : Octet
  iReadBitPos : ℕ
  ulNumBits : ℕ
  ulBitsLeft : ℕ
  deriving DecidableEq, Repr

/-- Programs over a bit buffer. -/
abbrev PerM := StateT AsnBufBits (Except Fault)

namespace AsnBufBits

/-- The constructor with an internal buffer, and `Clear`. -/
def new (bAligned : Bool) : AsnBufBits where
  pbuf := []
  bAlign := bAligned
  ucWriteCharBuf := 0
  iWriteBitPos := 8
  ucReadCharBuf := 0
  iReadBitPos := 8
  ulNumBits := 0
  ulBitsLeft := 0

def maskBits (cCharToMask : Octet) (iBitsToMask : ℕ) : Octet :=
  if iBitsToMask < 8 ∧ 0 < iBitsToMask then
    (cCharToMask >>> (8 - iBitsToMask)) <<< (8 - iBitsToMask)
  else cCharToMask

/-! ### Writing -/

/-- The body of the loop over the whole octets of a segment. -/
def putOctet (b : AsnBufBits) (seg : Octet) : AsnBufBits :=
  { b with
    pbuf := b.pbuf ++
      [b.ucWriteCharBuf ||| maskBits seg b.iWriteBitPos >>> (8 - b.iWriteBitPos)]
    ucWriteCharBuf := seg <<< b.iWriteBitPos
    ulBitsLeft := b.ulBitsLeft + 8
    ulNumBits := b.ulNumBits + 8 }

/-- The bits after the last whole octet. The octet is not masked before it is
merged: what lies beyond `iExtraBits` is cut off by the branch that is taken. -/
def putExtraBits (b : AsnBufBits) (seg : Octet) (iExtraBits : ℕ) : AsnBufBits :=
  let merged := b.ucWriteCharBuf ||| seg >>> (8 - b.iWriteBitPos)
  let b := { b with
    ulBitsLeft := b.ulBitsLeft + iExtraBits
    ulNumBits := b.ulNumBits + iExtraBits }
  if iExtraBits = b.iWriteBitPos then
    { b with pbuf := b.pbuf ++ [merged], iWriteBitPos := 8, ucWriteCharBuf := 0 }
  else if iExtraBits < b.iWriteBitPos then
    let iWriteBitPos := b.iWriteBitPos - iExtraBits
    { b with
      iWriteBitPos := iWriteBitPos
      ucWriteCharBuf := maskBits merged (8 - iWriteBitPos) }
  else
    let iWriteBitPos := 8 - (iExtraBits - b.iWriteBitPos)
    { b with
      pbuf := b.pbuf ++ [merged]
      iWriteBitPos := iWriteBitPos
      ucWriteCharBuf := (seg >>> (8 - iExtraBits)) <<< iWriteBitPos }

/-- The number of bits written is the number asked for: a `std::stringbuf`
never runs out of room. -/
def putBits (b : AsnBufBits) (seg : List Octet) (numBits : ℕ) : ℕ × AsnBufBits :=
  let b := (seg.take (numBits / 8)).foldl putOctet b
  (numBits, if numBits % 8 = 0 then b
    else putExtraBits b (seg.getD (numBits / 8) 0) (numBits % 8))

def octetAlignWrite (b : AsnBufBits) : ℕ × AsnBufBits :=
  if b.bAlign ∧ b.iWriteBitPos < 8 then
    (b.iWriteBitPos,
      { b with
        pbuf := b.pbuf ++ [b.ucWriteCharBuf]
        ulNumBits := b.ulNumBits + b.iWriteBitPos
        ulBitsLeft := b.ulBitsLeft + b.iWriteBitPos
        ucWriteCharBuf := 0
        iWriteBitPos := 8 })
  else (0, b)

/-! ### Reading -/

def octetAlignRead (b : AsnBufBits) : ℕ × AsnBufBits :=
  if b.bAlign then
    (8 - b.iReadBitPos,
      { b with
        ulBitsLeft := subUlong b.ulBitsLeft (8 - b.iReadBitPos)
        iReadBitPos := 8
        ucReadCharBuf := 0 })
  else (0, b)

/-- At the end of the stream the partial octet of the writer is handed over. -/
def readByte (b : AsnBufBits) : Except Fault (Octet × AsnBufBits) :=
  match b.pbuf with
  | ch :: rest => .ok (ch, { b with pbuf := rest })
  | [] =>
      if b.iWriteBitPos < 8 then
        .ok (b.ucWriteCharBuf, { b with iWriteBitPos := 8, ucWriteCharBuf := 0 })
      else if 0 < b.ulBitsLeft then
        .ok (b.ucReadCharBuf, { b with ulBitsLeft := 0 })
      else .error (bufferException "Read Past End of Buffer")

/-- The body of the loop of `GetBits` over whole octets. -/
def getOctet (b : AsnBufBits) : Except Fault (Octet × AsnBufBits) := do
  let (ch, b') ← b.readByte
  if b.iReadBitPos = 8 then
    return (ch, b')
  else
    return (b.ucReadCharBuf ||| maskBits ch b.iReadBitPos >>> (8 - b.iReadBitPos),
      { b' with ucReadCharBuf := ch <<< b.iReadBitPos })

def getOctets : ℕ → AsnBufBits → Except Fault (List Octet × AsnBufBits)
  | 0, b => return ([], b)
  | n + 1, b => do
      let (o, b) ← b.getOctet
      let (os, b) ← getOctets n b
      return (o :: os, b)

/-- The last, partial octet of `GetBits`. -/
def getExtraBits (b : AsnBufBits) (iExtraBits : ℕ) : Except Fault (Octet × AsnBufBits) :=
  if iExtraBits ≤ 8 - b.iReadBitPos then
    .ok (maskBits b.ucReadCharBuf iExtraBits,
      { b with
        ucReadCharBuf := b.ucReadCharBuf <<< iExtraBits
        iReadBitPos := b.iReadBitPos + iExtraBits })
  else do
    let (ch, b') ← b.readByte
    let missing := iExtraBits - (8 - b.iReadBitPos)
    let masked := maskBits ch missing
    let ucTempChar := if b.iReadBitPos ≠ 8 then masked >>> (8 - b.iReadBitPos) else masked
    return (b.ucReadCharBuf ||| ucTempChar,
      { b' with ucReadCharBuf := ch <<< missing, iReadBitPos := missing })

/-- `GetBits(numBits)`. The returned segment ends with a zero octet. -/
def getBits (b : AsnBufBits) (numBits : ℕ) : Except Fault (List Octet × AsnBufBits) := do
  if b.ulBitsLeft < numBits then
    throw (bufferException "Trying to retrieve more bits than in the buffer")
  let (seg, b) ← getOctets (numBits / 8) b
  if 0 < numBits % 8 then
    let (o, b) ← b.getExtraBits (numBits % 8)
    return (seg ++ [o, 0], { b with ulBitsLeft := subUlong b.ulBitsLeft numBits })
  else
    return (seg ++ [0], { b with ulBitsLeft := subUlong b.ulBitsLeft numBits })

def getBit (b : AsnBufBits) : Except Fault (Bool × AsnBufBits) := do
  if b.ulBitsLeft = 0 then
    throw (bufferException "No more bits in the buffer")
  let b ← if b.iReadBitPos = 8 then do
      let (ch, b) ← b.readByte
      pure { b with ucReadCharBuf := ch, iReadBitPos := 0 }
    else pure b
  return ((b.ucReadCharBuf &&& 0x80) != 0,
    { b with
      iReadBitPos := b.iReadBitPos + 1
      ucReadCharBuf := b.ucReadCharBuf <<< 1
      ulBitsLeft := subUlong b.ulBitsLeft 1 })

def getByte (b : AsnBufBits) : Except Fault (Octet × AsnBufBits) := do
  if b.ulBitsLeft < 8 then
    throw (bufferException "Trying to retrieve more bits than in the buffer")
  let (ch, b') ← b.readByte
  if b.iReadBitPos = 8 then
    return (ch, { b' with ulBitsLeft := subUlong b'.ulBitsLeft 8 })
  else
    return (b.ucReadCharBuf ||| ch >>> (8 - b.iReadBitPos),
      { b' with
        ucReadCharBuf := ch <<< b.iReadBitPos
        ulBitsLeft := subUlong b'.ulBitsLeft 8 })

end AsnBufBits

/-! ### The calls as programs -/

namespace PerM

def putBits (seg : List Octet) (numBits : ℕ) : PerM ℕ := fun b => .ok (b.putBits seg numBits)

def octetAlignWrite : PerM ℕ := fun b => .ok b.octetAlignWrite

def octetAlignRead : PerM ℕ := fun b => .ok b.octetAlignRead

def getBits (numBits : ℕ) : PerM (List Octet) := fun b => b.getBits numBits

def getBit : PerM Bool := fun b => b.getBit

def getByte : PerM Octet := fun b => b.getByte

/-- `IsAligned()`. -/
def isAligned : PerM Bool := fun b => .ok (b.bAlign, b)

/-- `m_ulBitsLeft`, which bounds how often a loop can read on. -/
def bitsLeft : PerM ℕ := fun b => .ok (b.ulBitsLeft, b)

end PerM

end Esnacc
