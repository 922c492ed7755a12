import Esnacc.Ber.TagLen

/-!
`ConsStringDeck`: the loop that walks through constructed contents and collects the
primitive pieces. With the base tag 0 it accepts every tag.
-/

namespace Esnacc

open BitString Tlv

/-- A constructed element that is open: its length and what has been read of it. -/
structure RefNode where
  length : ℕ
  count : ℕ
  deriving DecidableEq, Repr

/-- `MAKE_TAG_ID(UNIV, PRIM, cd)`, for `cd` below 31. -/
def makeTagId (cd : ℕ) : AsnTag := BitVec.ofNat 32 cd <<< 24

/-- `CONS << 24`. -/
def consBit : AsnTag := 0x20000000

/-- `TAG_IS_CONS`. -/
def tagIsCons (tag : AsnTag) : Bool := tag &&& consBit != 0

namespace ConsStringDeck

/-- A primitive piece behind its tag. -/
def piece (checkLength : Bool) (count : ℕ) : BerM (List Octet × ℕ) := do
  let (totalElmtsLen, count) ← bDecLen count
  if totalElmtsLen = indefiniteLen then
    throw (invalidTagException "Primitive String can not have INDEFINITE_LEN")
  else
    let left ← AsnBuf.length
    if checkLength ∧ left < totalElmtsLen then
      throw (invalidTagException "Primitive String, length")
    else
      let seg ← AsnBuf.getSeg totalElmtsLen
      return (seg, count + totalElmtsLen)

/-- The length of a constructed element behind its tag, and the count of the one that
contains it. -/
def enter (length count : ℕ) : BerM (ℕ × ℕ) := do
  let (totalElmtsLen, count) ← bDecLen count
  if totalElmtsLen ≠ indefiniteLen ∧ length < (totalElmtsLen + count) % 2 ^ 64 then
    throw (boundsException "Invalid constructed object")
  else return (totalElmtsLen, count)

/-- The loops of `Fill`: `curr` is the last of the open elements and `refList` those that
contain it, the innermost first. The fuel bounds the number of passes. -/
def fillLoop (baseTag : ℕ) : ℕ → RefNode → List RefNode → List (List Octet) →
    BerM (List (List Octet) × ℕ)
  | 0, _, _, _ => throw (.undefinedBehaviour "the loop does not end")
  | fuel + 1, curr, refList, deck =>
      let leave (count : ℕ) : BerM (List (List Octet) × ℕ) :=
        match refList with
        | [] => return (deck, count)
        | parent :: refList =>
            fillLoop baseTag fuel
              ⟨parent.length, (parent.count + toUlong (toInt32 count)) % 2 ^ 64⟩ refList deck
      if curr.count < curr.length ∨ curr.length = indefiniteLen then do
        let (tagId, count) ← bDecTag curr.count
        if tagId = 0 ∧ curr.length = indefiniteLen then
          let ch ← AsnBuf.getByte
          if ch = 0 then leave (count + 1)
          else throw (except "Partial EOC tag found" .decodeError)
        else if tagId = makeTagId baseTag then
          let r ← piece false count
          fillLoop baseTag fuel ⟨curr.length, r.2⟩ refList (deck ++ [r.1])
        else if tagId = makeTagId baseTag ||| consBit ∨ (baseTag = 0 ∧ tagIsCons tagId) then
          let r ← enter curr.length count
          fillLoop baseTag fuel ⟨r.1, 0⟩ (⟨curr.length, r.2⟩ :: refList) deck
        else if baseTag = 0 then
          let r ← piece true count
          fillLoop baseTag fuel ⟨curr.length, r.2⟩ refList (deck ++ [r.1])
        else throw (invalidTagException "Constructed String")
      else leave curr.count

/-- `Fill`, on an empty deck. -/
def fill (baseTag elmtLen bytesDecoded : ℕ) : BerM (List (List Octet) × ℕ) := fun b =>
  (do
    let r ← fillLoop baseTag (b.rest.length + 2) ⟨elmtLen, 0⟩ [] []
    return (r.1, bytesDecoded + r.2)).run b

/-- `Collapse`, which appends to the string. -/
def collapse (deck : List (List Octet)) (str : List Octet) : List Octet := str ++ deck.flatten

end ConsStringDeck

end Esnacc
