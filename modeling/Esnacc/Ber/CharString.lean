import Esnacc.Ber.ConsString
import Esnacc.Lib.StreamCodec

/-!
The contents of the character string types with one octet a character under the basic
encoding rules, in a buffer in which more follows.
-/

namespace Esnacc

open BitString

/-- `GetSeg` into a string: a length of 0 stands for all that is left of the buffer. -/
def AsnBuf.getSegString (segLen : ℕ) : BerM (List Octet) := do
  let segLen ← if segLen = 0 then AsnBuf.length else pure segLen
  let left ← AsnBuf.length
  if left < segLen then throw (bufferException "GetSeg attempt to read past end of data")
  else AsnBuf.getSeg segLen

namespace AsnString

variable (typeName : String) (check : List Octet → Bool)

/-- `BEncContent` of a type whose `check()` is `check`. -/
def bEncContent (str : List Octet) (b : Deck) : Except Fault (ℕ × Deck) :=
  if check str then .ok (toUlong (toInt32 str.length), b.putSegRvs str)
  else .error (except "Invalid character present" .restrictedTypeError)

/-- The loop of `BDecConsString`, which appends to the string. The fuel bounds the number
of passes. -/
def consStringLoop : ℕ → ℕ → ℕ → List Octet → BerM (List Octet × ℕ)
  | 0, _, _, _ => throw (.undefinedBehaviour "the loop does not end")
  | fuel + 1, elmtLen, totalElmtsLen, str =>
      if totalElmtsLen < elmtLen ∨ elmtLen = indefiniteLen then do
        let (innerTag, totalElmtsLen) ← bDecTag totalElmtsLen
        if innerTag = 0 ∧ elmtLen = indefiniteLen then
          let ch ← AsnBuf.getByte
          if ch = 0 then return (str, totalElmtsLen + 1)
          else throw (except "Partial EOC tag found" .decodeError)
        else
          let (innerLen, totalElmtsLen) ← bDecLen totalElmtsLen
          if innerTag = makeTagId 4 then
            let seg ← AsnBuf.getSeg innerLen
            consStringLoop fuel elmtLen (totalElmtsLen + innerLen) (str ++ seg)
          else if innerTag = makeTagId 4 ||| consBit then
            let (str, bytesDecoded) ← consStringLoop fuel innerLen 0 str
            consStringLoop fuel elmtLen (totalElmtsLen + bytesDecoded) str
          else throw (invalidTagException typeName)
      else return (str, totalElmtsLen)

def bDecConsString (elmtLen bytesDecoded : ℕ) : BerM (List Octet × ℕ) := fun b =>
  (do
    let r ← consStringLoop typeName (b.rest.length + 1) elmtLen 0 []
    return (r.1, bytesDecoded + r.2)).run b

/-- `BDecContent`, which erases the old characters first. -/
def bDecContent (tagId : AsnTag) (elmtLen bytesDecoded : ℕ) : BerM (List Octet × ℕ) :=
  if tagIsCons tagId then bDecConsString typeName elmtLen bytesDecoded
  else if elmtLen ≠ indefiniteLen then do
    let str ← AsnBuf.getSegString elmtLen
    return (str, bytesDecoded + elmtLen)
  else throw (boundsException "Indefinite length not allowed on primitive")

/-- What `BEncContent` writes in front of the octets of the buffer is decoded to the string
again, and those octets are left. -/
def RoundTrips (past str : List Octet) (b : Deck) : Prop :=
  ∀ len b', bEncContent check str b = .ok (len, b') →
    ∀ (tagId : AsnTag) (bytesDecoded : ℕ), tagIsCons tagId = false →
      (bDecContent typeName tagId str.length bytesDecoded).run ⟨past, b'.octets⟩ =
        .ok ((str, bytesDecoded + str.length), ⟨str.reverse ++ past, b.octets⟩)

end AsnString

/-! ### What is fetched -/

theorem AsnBuf.run_length_bind {α : Type} (f : ℕ → BerM α) (b : AsnBuf) :
    (AsnBuf.length >>= f).run b = (f (bytesRemaining b)).run b := by
  have hrun := length_run b
  generalize bytesRemaining b = left at hrun ⊢
  rw [StateT.run_bind, hrun]
  rfl

theorem AsnBuf.getSegString_pos {segLen : ℕ} (hne : segLen ≠ 0) (b : AsnBuf) :
    (getSegString segLen).run b =
      if bytesRemaining b < segLen then
        .error (bufferException "GetSeg attempt to read past end of data")
      else (getSeg segLen).run b := by
  rw [getSegString, if_neg hne, pure_bind, run_length_bind]
  split <;> rfl

/-- All that is left is fetched for a length of 0. -/
theorem AsnBuf.getSegString_zero (b : AsnBuf) :
    (getSegString 0).run b = (getSeg (bytesRemaining b)).run b := by
  rw [getSegString, if_pos rfl, run_length_bind, run_length_bind, if_neg (lt_irrefl _)]

theorem AsnBuf.getSegString_reads {past rest str : List Octet} (hne : str.length ≠ 0)
    (hfit : str.length ≤ bytesRemaining ⟨past, str ++ rest⟩) :
    Cursor.Reads past rest (getSegString str.length) str str := by
  rw [Cursor.Reads, getSegString_pos hne, if_neg (Nat.not_lt.mpr hfit)]
  exact getSeg_reads past rest str

theorem AsnBuf.getSegString_fails {past ahead : List Octet} {segLen : ℕ} (hne : segLen ≠ 0)
    (hshort : bytesRemaining ⟨past, ahead⟩ < segLen) :
    Cursor.Fails past ahead (getSegString segLen) :=
  ⟨_, (getSegString_pos hne _).trans (if_pos hshort)⟩

theorem AsnBuf.getSegString_zero_reads {past rest : List Octet} :
    Cursor.Reads past rest (getSegString 0) [] [] ↔ bytesRemaining ⟨past, rest⟩ = 0 := by
  rw [Cursor.Reads, List.nil_append, getSegString_zero]
  constructor
  · intro hrun
    by_cases hfit : bytesRemaining ⟨past, rest⟩ ≤ rest.length
    · have hseg := getSeg_reads past (rest.drop (bytesRemaining ⟨past, rest⟩))
        (rest.take (bytesRemaining ⟨past, rest⟩))
      rw [Cursor.Reads, List.take_append_drop, List.length_take, min_eq_left hfit, hrun] at hseg
      have htake := congrArg List.length (Prod.mk.inj (Except.ok.inj hseg)).1
      rw [List.length_take, min_eq_left hfit] at htake
      exact htake.symm
    · exact absurd hrun (getSeg_fails past (not_le.mp hfit)).not_ok
  · intro hzero
    rw [hzero]
    exact getSeg_reads past rest []

namespace AsnString

variable {typeName : String} {check : List Octet → Bool}

theorem bDecContent_primitive {tagId : AsnTag} {elmtLen : ℕ} (htag : tagIsCons tagId = false)
    (hdefinite : elmtLen ≠ indefiniteLen) (bytesDecoded : ℕ) :
    bDecContent typeName tagId elmtLen bytesDecoded =
      AsnBuf.getSegString elmtLen >>= fun str => pure (str, bytesDecoded + elmtLen) := by
  rw [bDecContent, htag, if_neg Bool.false_ne_true, if_pos hdefinite]

/-- The round trip of a string whose characters are permitted is that of its octets. -/
theorem roundTrips_iff_getSeg {past str : List Octet} {b : Deck} (hcheck : check str = true) :
    RoundTrips typeName check past str b ↔
      str.length ≠ indefiniteLen ∧
        Cursor.Reads past b.octets (AsnBuf.getSegString str.length) str str := by
  have henc : bEncContent check str b =
      .ok (toUlong (toInt32 str.length), b.putSegRvs str) := by
    rw [bEncContent, if_pos hcheck]
  constructor
  · intro h
    have hrun := h _ _ henc 0 0 (by decide)
    rw [Deck.octets_putSegRvs] at hrun
    have hdefinite : str.length ≠ indefiniteLen := by
      intro hindef
      rw [bDecContent, if_neg (by decide), if_neg (not_not.mpr hindef)] at hrun
      cases hrun
    rw [bDecContent_primitive (by decide) hdefinite] at hrun
    obtain ⟨seg, b', hseg, hpure⟩ := StreamCodec.run_bind_eq_ok hrun
    cases hpure
    exact ⟨hdefinite, hseg⟩
  · rintro ⟨hdefinite, hreads⟩ len b' hb' tagId bytesDecoded htag
    obtain ⟨rfl, rfl⟩ := Prod.mk.inj (Except.ok.inj (henc.symm.trans hb'))
    rw [bDecContent_primitive htag hdefinite, Deck.octets_putSegRvs]
    exact hreads.run_bind

/-- The octets that follow an empty string are swallowed, if any are left; every other
string comes back as soon as its octets are seen to be there. -/
theorem stringRoundTrips_iff {past str : List Octet} {b : Deck} (hcheck : check str = true) :
    RoundTrips typeName check past str b ↔
      (str ≠ [] ∧ str.length ≠ indefiniteLen ∧
          str.length ≤ AsnBuf.bytesRemaining ⟨past, str ++ b.octets⟩) ∨
        (str = [] ∧ AsnBuf.bytesRemaining ⟨past, b.octets⟩ = 0) := by
  rw [roundTrips_iff_getSeg hcheck]
  rcases eq_or_ne str [] with rfl | hne
  · simp only [ne_eq, not_true_eq_false, false_and, false_or, true_and]
    constructor
    · rintro ⟨-, hreads⟩
      exact AsnBuf.getSegString_zero_reads.mp hreads
    · exact fun hzero => ⟨by decide, AsnBuf.getSegString_zero_reads.mpr hzero⟩
  · have hlen : str.length ≠ 0 := fun h => hne (List.length_eq_zero_iff.mp h)
    simp only [hne, ne_eq, not_false_eq_true, true_and, false_and, or_false]
    refine and_congr_right fun _ => ⟨fun hreads => ?_, AsnBuf.getSegString_reads hlen⟩
    by_contra hshort
    exact (AsnBuf.getSegString_fails hlen (not_le.mp hshort)).not_reads hreads

/-- `NumericString::check`. -/
def numericCheck (str : List Octet) : Bool :=
  str.all fun ch => (0x30 ≤ ch.toNat && ch.toNat ≤ 0x39) || ch == 0x20

/-- One digit in front of the end-of-contents octets of the value that contains it. -/
theorem roundTrips_digit : RoundTrips "NumericString" numericCheck [1, 18] [0x37]
    [⟨[0, 0], segSize - 2, none⟩] :=
  (stringRoundTrips_iff (by decide)).mpr (.inl ⟨by decide, by decide, by decide⟩)

/-- An empty string takes the NULL behind it for its own contents. -/
theorem not_roundTrips_empty :
    ¬ ∀ (str : List Octet) (b : Deck), RoundTrips "UTF8String" (fun _ => true) [] str b := by
  intro h
  have hrun := h [] [⟨[5, 0], segSize - 2, none⟩] _ _ rfl 0 0 (by decide)
  exact absurd hrun (by decide)

end AsnString

end Esnacc
