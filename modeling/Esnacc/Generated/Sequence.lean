import Esnacc.Generated.Element
import Esnacc.Ber.Extension

/-!
The decoder of a SEQUENCE, unrolled from the list of its elements with one tag of look-ahead.
-/

namespace Esnacc.Generated

open BitString Tlv

variable {α : Type}

/-- What a SEQUENCE holds: the members that were on the wire, and the unknown elements. -/
structure SequenceObject (α : Type) where
  members : List (Option α)
  extension : List (List Octet)
  deriving DecidableEq

def SequenceObject.cons (x : Option α) (obj : SequenceObject α) : SequenceObject α :=
  { obj with members := x :: obj.members }

/-- No member, as after `Clear`. -/
def SequenceObject.clear (elmts : List (BerElmt α)) : SequenceObject α :=
  ⟨elmts.map fun _ => none, []⟩

/-- `BDEC_2ND_EOC_OCTET`. -/
def bDec2ndEocOctet (bytesDecoded : ℕ) : BerM ℕ := do
  let ch ← AsnBuf.getByte
  if ch ≠ 0 then throw (except "second octet of EOC not zero" .decodeError)
  else return bytesDecoded + 1

/-- Where the decoder goes on after an element. -/
inductive Next
  | finished (seqBytesDecoded : ℕ)
  | goOn (tag1 : AsnTag) (seqBytesDecoded : ℕ)
  deriving DecidableEq

/-- `BDecValidateEnd`, before it adds up the counts. -/
def bDecValidateEnd (elmtLen0 n : ℕ) : BerM Next :=
  if n = elmtLen0 then return .finished n
  else do
    let (tag1, n) ← bDecTag n
    if elmtLen0 = indefiniteLen ∧ tag1 = 0 then
      let n ← bDec2ndEocOctet n
      return .finished n
    else return .goOn tag1 n

/-- The code for getting the next tag. -/
def bDecNext (elmtLen0 : ℕ) (elmts : List (BerElmt α)) (tag1 : AsnTag) (n : ℕ) : BerM Next :=
  match elmts with
  | [] => return .goOn tag1 n
  | e :: _ =>
      if elmts.all BerElmt.mayBeAbsent then bDecValidateEnd elmtLen0 n
      else if e.extensionAddition then return .goOn tag1 n
      else do
        let (tag1, n) ← bDecTag n
        return .goOn tag1 n

/-- What is done behind the last element: `extension` tells whether the type has a marker. -/
def bDecSequenceEnd (extension : Bool) (elmtLen0 bytesDecoded : ℕ) (tag1 : AsnTag) (n : ℕ) :
    BerM (SequenceObject α × ℕ) :=
  if extension then do
    let (extList, n) ← AsnExtension.readFromBuffer tag1 elmtLen0 n
    return (⟨[], extList⟩, bytesDecoded + n)
  else if elmtLen0 = indefiniteLen then do
    let bytesDecoded ← bDecEoc bytesDecoded
    return (⟨[], []⟩, bytesDecoded)
  else if n ≠ elmtLen0 then throw (except "Length discrepancy on sequence" .decodeError)
  else return (⟨[], []⟩, bytesDecoded + n)

/-- The code from an element on, with the tag that was read last and `seqBytesDecoded`. -/
def bDecElmts (extension : Bool) (elmtLen0 bytesDecoded : ℕ) :
    List (BerElmt α) → AsnTag → ℕ → BerM (SequenceObject α × ℕ)
  | [], tag1, n => bDecSequenceEnd extension elmtLen0 bytesDecoded tag1 n
  | e :: elmts, tag1, n =>
      if e.kind = .extension then do
        let (obj, b) ← bDecElmts extension elmtLen0 bytesDecoded elmts tag1 n
        return (obj.cons none, b)
      else if e.test tag1 then do
        let (x, tag1, n) ← e.bDecElmt tag1 n
        match ← bDecNext elmtLen0 elmts tag1 n with
        | .finished n => return ((SequenceObject.clear elmts).cons (some x), bytesDecoded + n)
        | .goOn tag1 n => do
            let (obj, b) ← bDecElmts extension elmtLen0 bytesDecoded elmts tag1 n
            return (obj.cons (some x), b)
      else if e.required then
        throw (except "SEQUENCE is missing non-optional root elmt" .decodeError)
      else do
        let (obj, b) ← bDecElmts extension elmtLen0 bytesDecoded elmts tag1 n
        return (obj.cons none, b)

/-- An open type whose tag the code in front of the first element does not read. -/
def BerElmt.isUntaggedAny (e : BerElmt α) : Bool :=
  (e.kind = .any || e.kind = .anyDefinedBy) && e.tags.isEmpty

/-- `BDecContent` of a SEQUENCE. For `IsTailOptional` the marker is an element that may not be
absent. -/
def bDecSequence (elmts : List (BerElmt α)) (elmtLen0 bytesDecoded : ℕ) :
    BerM (SequenceObject α × ℕ) :=
  let extension := elmts.any fun e => e.kind = .extension
  match elmts with
  | [] =>
      if elmtLen0 = indefiniteLen then do
        let bytesDecoded ← bDecEoc bytesDecoded
        return (⟨[], []⟩, bytesDecoded)
      else if elmtLen0 ≠ 0 then throw (except "Expected an empty sequence" .decodeError)
      else return (⟨[], []⟩, bytesDecoded)
  | e :: _ =>
      if elmts.all BerElmt.isPtr then
        if elmtLen0 = 0 then return (.clear elmts, bytesDecoded)
        else do
          let (tag1, n) ← (if e.isUntaggedAny then pure (0, 0) else bDecTag 0 :
            BerM (AsnTag × ℕ))
          if elmtLen0 = indefiniteLen ∧ tag1 = 0 then
            let n ← bDec2ndEocOctet n
            return (.clear elmts, bytesDecoded + n)
          else bDecElmts extension elmtLen0 bytesDecoded elmts tag1 n
      else if e.isUntaggedAny || e.extensionAddition then
        bDecElmts extension elmtLen0 bytesDecoded elmts 0 0
      else if elmtLen0 = 0 then return (.clear elmts, bytesDecoded)
      else do
        let (tag1, n) ← bDecTag 0
        bDecElmts extension elmtLen0 bytesDecoded elmts tag1 n

/-- `BEncContent` of a SEQUENCE whose unknown elements are already octets. -/
def bEncSequence (elmts : List (BerElmt α)) (members : List (Option α)) : List Octet :=
  (List.zipWith (fun e x => x.elim [] e.bEncElmt) elmts members).flatten

end Esnacc.Generated
