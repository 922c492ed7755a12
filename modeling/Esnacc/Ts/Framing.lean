import Esnacc.Lib.BitString

/-!
The frames on a TCP connection, as `TSASN1NodeClient` cuts them out of what it has read. A
buffer is the list of its octets. What follows the first octet of a buffer decides whether a
frame is complete; two kinds of frames are told apart by this first octet.
-/

namespace Esnacc.Ts

open BitString

/-- A complete frame as it is handed on. -/
abbrev Frame := List Octet

def frameStartJson : Octet := 0x4A#8

def jsonHeaderSize : ℕ := 8

def isRoseTag (byte : Octet) : Bool :=
  byte = 0xA1#8 || byte = 0xA2#8 || byte = 0xA3#8 || byte = 0xA4#8

/-! ### The functions of JavaScript that are used -/

/-- Where an index of `subarray` points to. -/
def relativeIndex (length : ℕ) (index : ℤ) : ℕ :=
  if index < 0 then (length + index).toNat else min index.toNat length

def subarray (buf : List Octet) (start stop : ℤ) : List Octet :=
  (buf.take (relativeIndex buf.length stop)).drop (relativeIndex buf.length start)

/-- `subarray` up to the end. -/
def subarrayFrom (buf : List Octet) (start : ℤ) : List Octet :=
  buf.drop (relativeIndex buf.length start)

/-- `toString("ascii")` masks the highest bit. -/
def asciiCode (o : Octet) : ℕ := o.toNat % 128

def isWhiteSpace (c : ℕ) : Bool := (9 ≤ c && c ≤ 13) || c = 32

def isDigit (c : ℕ) : Bool := 48 ≤ c && c ≤ 57

def decimal (cs : List ℕ) : ℕ := cs.foldl (fun n c => 10 * n + (c - 48)) 0

/-- `parseInt(..., 10)` of the characters of ASCII; `none` is NaN. -/
def parseInt (cs : List ℕ) : Option ℤ :=
  let cs := cs.dropWhile isWhiteSpace
  let negative := cs.head? = some 45
  let cs := if negative ∨ cs.head? = some 43 then cs.tail else cs
  let digits := cs.takeWhile isDigit
  if digits = [] then none
  else some (if negative then -(decimal digits : ℤ) else decimal digits)

/-! ### Cutting out frames -/

/-- The error `parseBerLength` throws. -/
structure LengthError where
  firstLengthByte : Octet
  deriving DecidableEq, Repr

/-- `tryConsumeJsonFrame`: the frame, and what is left in the buffer. -/
def tryConsumeJsonFrame (pending : List Octet) : Option Frame × List Octet :=
  if pending.length < jsonHeaderSize then (none, pending)
  else
    match parseInt ((subarray pending 1 jsonHeaderSize).map asciiCode) with
    | none => (none, subarrayFrom pending 1)
    | some payloadLength =>
        if payloadLength < 0 then (none, subarrayFrom pending 1)
        else
          let totalFrameLength := jsonHeaderSize + payloadLength
          if pending.length < totalFrameLength then (none, pending)
          else (some (subarray pending jsonHeaderSize totalFrameLength),
            subarrayFrom pending totalFrameLength)

/-- The loop over the octets of a length, with the operators of JavaScript for 32 bits. -/
def berLengthValue (bytes : List Octet) : BitVec 32 :=
  bytes.foldl (fun valueLength byte => valueLength <<< 8 ||| byte.setWidth 32) 0

/-- `parseBerLength`: `valueLength` and `lengthFieldSize`. -/
def parseBerLength (pending : List Octet) (offset : ℕ) : Except LengthError (Option (ℤ × ℕ)) :=
  match pending[offset]? with
  | none => .ok none
  | some firstLengthByte =>
      if firstLengthByte &&& 0x80#8 = 0 then .ok (some (firstLengthByte.toNat, 1))
      else
        let numLengthBytes := (firstLengthByte &&& 0x7F#8).toNat
        if numLengthBytes = 0 ∨ 4 < numLengthBytes then .error ⟨firstLengthByte⟩
        else if pending.length < offset + 1 + numLengthBytes then .ok none
        else
          let bytes := (pending.drop (offset + 1)).take numLengthBytes
          .ok (some ((berLengthValue bytes).toInt, 1 + numLengthBytes))

def tryConsumeBerFrame (pending : List Octet) :
    Except LengthError (Option Frame × List Octet) :=
  if pending.length < 2 then .ok (none, pending)
  else
    let tagSize := 1
    match parseBerLength pending tagSize with
    | .error e => .error e
    | .ok none => .ok (none, pending)
    | .ok (some (valueLength, lengthFieldSize)) =>
        let totalFrameLength := tagSize + lengthFieldSize + valueLength
        if pending.length < totalFrameLength then .ok (none, pending)
        else .ok (some (subarray pending 0 totalFrameLength),
          subarrayFrom pending totalFrameLength)

/-- The array that a call returns, or what it throws, and the buffer behind it. -/
abbrev Outcome := Except LengthError (List Frame) × List Octet

/-- The loop of `handleFraming`; `none` when the fuel does not suffice. -/
def framingLoop : ℕ → List Octet → List Frame → Option Outcome
  | 0, _, _ => none
  | _ + 1, [], completeFrames => some (.ok completeFrames, [])
  | fuel + 1, firstByte :: rest, completeFrames =>
      let pending := firstByte :: rest
      if firstByte = frameStartJson then
        match tryConsumeJsonFrame pending with
        | (none, pending) => some (.ok completeFrames, pending)
        | (some frame, pending) => framingLoop fuel pending (completeFrames ++ [frame])
      else if isRoseTag firstByte then
        match tryConsumeBerFrame pending with
        | .error e => some (.error e, pending)
        | .ok (none, pending) => some (.ok completeFrames, pending)
        | .ok (some frame, pending) => framingLoop fuel pending (completeFrames ++ [frame])
      else framingLoop fuel (subarrayFrom pending 1) completeFrames

def handleFraming (fuel : ℕ) (pendingSocketData data : List Octet) : Option Outcome :=
  framingLoop fuel (pendingSocketData ++ data) []

/-- A call returns. -/
def Calls (pending data : List Octet) (o : Outcome) : Prop :=
  ∃ fuel, handleFraming fuel pending data = some o

/-- The frames of an outcome: a call that throws hands on none. -/
def Outcome.frames (o : Outcome) : List Frame := (o.1.toOption).getD []

/-- Successive calls with these chunks: the frames that are returned, and the buffer in the
end. -/
inductive Receives : List Octet → List (List Octet) → List Frame → List Octet → Prop
  | nil (pending : List Octet) : Receives pending [] [] pending
  | cons {pending data : List Octet} {chunks : List (List Octet)} {o : Outcome}
      {frames : List Frame} {pending' : List Octet} (hcall : Calls pending data o)
      (hrest : Receives o.2 chunks frames pending') :
      Receives pending (data :: chunks) (o.frames ++ frames) pending'

end Esnacc.Ts
