import Esnacc.Ber.Buffer
import Esnacc.Runtime.Int

/-!
The contents of an INTEGER under the basic encoding rules: the octets of the object.
-/

namespace Esnacc

open BitString

namespace AsnInt

def bEncContent (x : AsnInt) (b : Deck) : ℕ × Deck := (x.mBytes.length, b.putSegRvs x.mBytes)

/-- What becomes of the object, and how the call ends: with the new count and position,
or with an exception. Octets that were allocated and not read are left out. -/
def bDecContent (_target : AsnInt) (elmtLen : ℕ) (b : AsnBuf) (bytesDecoded : ℕ) :
    AsnInt × Except Fault (ℕ × AsnBuf) :=
  if elmtLen = indefiniteLen then
    (cleared, .error (except "indefinite length on primitive" .decodeError))
  else
    match (AsnBuf.getSeg elmtLen).run b with
    | .error e => (cleared, .error e)
    | .ok (mBytes, b) =>
        match getLongLong ⟨0, mBytes⟩ with
        | .error e => (⟨0, mBytes⟩, .error e)
        | .ok mValue => (⟨mValue, mBytes⟩, .ok (bytesDecoded + elmtLen, b))

/-- The contents that are written for an integer are decoded to it, wherever they stand
and whatever the object held before. -/
def RoundTrips (x : AsnInt) : Prop :=
  ∀ (target : AsnInt) (b : Deck) (past : List Octet) (bytesDecoded : ℕ),
    ∃ y, bDecContent target (x.bEncContent b).1 ⟨past, (x.bEncContent b).2.octets⟩ bytesDecoded =
      (y, .ok (bytesDecoded + (x.bEncContent b).1, ⟨x.mBytes.reverse ++ past, b.octets⟩)) ∧
      y.value = x.value

theorem bDecContent_octets (target : AsnInt) {os : List Octet} (h : os.length ≠ indefiniteLen)
    (past rest : List Octet) (bytesDecoded : ℕ) :
    bDecContent target os.length ⟨past, os ++ rest⟩ bytesDecoded =
      match getLongLong ⟨0, os⟩ with
      | .error e => (⟨0, os⟩, .error e)
      | .ok mValue =>
          (⟨mValue, os⟩, .ok (bytesDecoded + os.length, ⟨os.reverse ++ past, rest⟩)) := by
  rw [bDecContent, if_neg h, show (AsnBuf.getSeg os.length).run ⟨past, os ++ rest⟩ = _ from
    AsnBuf.getSeg_reads past rest os]

theorem roundTrips_iff (x : AsnInt) : x.RoundTrips ↔ x.mBytes.length ≤ 8 := by
  have hwritten (b : Deck) : (x.bEncContent b).2.octets = x.mBytes ++ b.octets :=
    b.octets_putSegRvs x.mBytes
  constructor
  · intro h
    by_contra hlong
    obtain ⟨y, hy, -⟩ := h cleared [] [] 0
    rw [hwritten] at hy
    by_cases hindef : x.mBytes.length = indefiniteLen
    · rw [bEncContent, bDecContent, if_pos hindef] at hy
      cases congrArg Prod.snd hy
    · obtain ⟨e, he⟩ := @getLongLong_error ⟨0, x.mBytes⟩ (Nat.lt_of_not_le hlong)
      rw [bEncContent, bDecContent_octets cleared hindef, he] at hy
      cases congrArg Prod.snd hy
  · intro hshort target b past bytesDecoded
    have hdefinite : x.mBytes.length ≠ indefiniteLen := by
      rw [indefiniteLen]
      omega
    have hvalue := @getLongLong_eq ⟨0, x.mBytes⟩ hshort
    rw [hwritten]
    refine ⟨⟨value ⟨0, x.mBytes⟩, x.mBytes⟩, ?_, rfl⟩
    rw [bEncContent, bDecContent_octets target hdefinite, hvalue]

/-- Two to the power of 64 takes nine octets. -/
theorem not_roundTrips : ¬ ∀ x : AsnInt, x.RoundTrips := by
  intro h
  obtain ⟨y, hy, -⟩ := h ⟨0, [1, 0, 0, 0, 0, 0, 0, 0, 0]⟩ cleared [] [] 0
  cases congrArg Prod.snd hy

end AsnInt

end Esnacc
