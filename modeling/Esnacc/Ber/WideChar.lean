import Esnacc.Ber.CharString
import Esnacc.Ber.Int
import Esnacc.Runtime.Word

/-!
BMPString and UniversalString: wide characters as two or four octets each. The decoders
read the octets as `char`, which is signed, so that an octet with its high bit set fills
everything above it with ones; and the one that combines the segments of constructed
contents fetches, for a primitive segment, as many octets as the enclosing contents have.
-/

namespace Esnacc

open BitString Tlv

/-- `(wchar_t)ch` for a `char`. -/
def signedChar (ch : Octet) : WChar := ch.signExtend 32

namespace WideAsnString

/-- The loop of `CombineConsString`, which appends to `encStr`. The fuel bounds the number
of passes. -/
def combineLoop (typeName : String) : ℕ → ℕ → ℕ → List Octet → BerM (List Octet × ℕ)
  | 0, _, _, _ => throw (.undefinedBehaviour "the loop does not end")
  | fuel + 1, elmtLen, totalElmtsLen, encStr =>
      if totalElmtsLen < elmtLen ∨ elmtLen = indefiniteLen then do
        let (innerTag, totalElmtsLen) ← bDecTag totalElmtsLen
        if innerTag = 0 ∧ elmtLen = indefiniteLen then
          let ch ← AsnBuf.getByte
          if ch = 0 then return (encStr, totalElmtsLen + 1)
          else throw (except "Partial EOC tag found" .decodeError)
        else
          let (innerLen, totalElmtsLen) ← bDecLen totalElmtsLen
          if innerTag = makeTagId 4 then
            -- there is no array of so many octets
            if 2 ^ 63 ≤ elmtLen then throw (except "std::bad_array_new_length" .defaultErrorCode)
            else
              let seg ← AsnBuf.getSeg elmtLen
              combineLoop typeName fuel elmtLen (totalElmtsLen + elmtLen) (encStr ++ seg)
          else if innerTag = makeTagId 4 ||| consBit then
            let (encStr, bytesDecoded) ← combineLoop typeName fuel innerLen 0 encStr
            combineLoop typeName fuel elmtLen (totalElmtsLen + bytesDecoded) encStr
          else throw (invalidTagException typeName)
      else return (encStr, totalElmtsLen)

def combineConsString (typeName : String) (elmtLen : ℕ) : BerM (List Octet × ℕ) := fun b =>
  (combineLoop typeName (b.rest.length + 1) elmtLen 0 []).run b

/-- The octets from which `BDecContent` makes the characters, and the new count. -/
def encodedString (typeName : String) (tagId : AsnTag) (elmtLen bytesDecoded : ℕ) :
    BerM (List Octet × ℕ) := do
  let left ← AsnBuf.length
  if elmtLen = indefiniteLen ∨ left < elmtLen then
    throw (memoryException "elmtLen requests for too much data")
  else if tagIsCons tagId then
    let r ← combineConsString typeName elmtLen
    return (r.1, bytesDecoded + r.2)
  else
    let seg ← AsnBuf.getSeg elmtLen
    return (seg, bytesDecoded + elmtLen)

/-- What both types do with the octets: `what` is the text of the exception if they are no
multiple of `width`. -/
def decodeContent (typeName what : String) (width : ℕ) (decodeLoop : List Octet → List WChar)
    (tagId : AsnTag) (elmtLen bytesDecoded : ℕ) : BerM (List WChar × ℕ) := do
  let (encStr, bytesDecoded) ← encodedString typeName tagId elmtLen bytesDecoded
  if encStr.length % width ≠ 0 then throw (except what .restrictedTypeError)
  else return (decodeLoop encStr, bytesDecoded)

end WideAsnString

open WideAsnString

namespace BMPString

/-- The loop of `BEncContent`, over the characters from the last one. -/
def encodeLoop : List WChar → ℕ → Deck → Except Fault (ℕ × Deck)
  | [], len, b => .ok (len, b)
  | wc :: wchars, len, b =>
      let b := (b.putByteRvs (wc.setWidth 8)).putByteRvs ((wc.sshiftRight 8).setWidth 8)
      if wc.sshiftRight 16 ≠ 0 then .error (except "Invalid BMPString" .restrictedTypeError)
      else encodeLoop wchars (len + 2) b

def bEncContent (wstr : List WChar) (b : Deck) : Except Fault (ℕ × Deck) :=
  encodeLoop wstr.reverse 0 b

/-- The loop of `BDecContent`. -/
def decodeLoop : List Octet → List WChar
  | ch₁ :: ch₀ :: encStr =>
      ((signedChar ch₁ <<< 8) ||| signedChar ch₀) :: decodeLoop encStr
  | _ => []

def bDecContent : AsnTag → ℕ → ℕ → BerM (List WChar × ℕ) :=
  decodeContent "BMPString" "Invalid BMPString length not multiple of 2" 2 decodeLoop

end BMPString

namespace UniversalString

/-- The loop of `BEncContent`, over the characters from the last one. -/
def encodeLoop : List WChar → ℕ → Deck → ℕ × Deck
  | [], len, b => (len, b)
  | wc :: wchars, len, b =>
      encodeLoop wchars (len + 4)
        ((((b.putByteRvs (wc.setWidth 8)).putByteRvs ((wc.sshiftRight 8).setWidth 8)).putByteRvs
          ((wc.sshiftRight 16).setWidth 8)).putByteRvs ((wc.sshiftRight 24).setWidth 8))

def bEncContent (wstr : List WChar) (b : Deck) : Except Fault (ℕ × Deck) :=
  .ok (encodeLoop wstr.reverse 0 b)

/-- The loop of `BDecContent`. -/
def decodeLoop : List Octet → List WChar
  | ch₃ :: ch₂ :: ch₁ :: ch₀ :: encStr =>
      ((((((((0 <<< 8) ||| signedChar ch₃) <<< 8) ||| signedChar ch₂) <<< 8) |||
        signedChar ch₁) <<< 8) ||| signedChar ch₀) :: decodeLoop encStr
  | _ => []

def bDecContent : AsnTag → ℕ → ℕ → BerM (List WChar × ℕ) :=
  decodeContent "UniversalString" "Invalid UniversalString length not multiple of 4" 4 decodeLoop

end UniversalString

/-! ### Characters and their octets -/

/-- The character of four octets. -/
def wide (a b c d : Octet) : WChar :=
  (a.setWidth 32 <<< 24) ||| (b.setWidth 32 <<< 16) ||| (c.setWidth 32 <<< 8) ||| d.setWidth 32

/-- What the sign of an octet puts in front of it. -/
def fill (o : Octet) : Octet := if o.msb then 0xFF else 0

theorem signedChar_eq (o : Octet) : signedChar o = wide (fill o) (fill o) (fill o) o := by
  revert o
  decide

theorem or_pairs (x y z t x' y' z' t' : WChar) : x ||| y ||| z ||| t ||| (x' ||| y' ||| z' ||| t') =
    x ||| x' ||| (y ||| y') ||| (z ||| z') ||| (t ||| t') := by
  ac_rfl

theorem wide_or (a b c d a' b' c' d' : Octet) : wide a b c d ||| wide a' b' c' d' =
    wide (a ||| a') (b ||| b') (c ||| c') (d ||| d') := by
  rw [wide, wide, wide, BitVec.setWidth_or, BitVec.setWidth_or, BitVec.setWidth_or,
    BitVec.setWidth_or, BitVec.shiftLeft_or_distrib, BitVec.shiftLeft_or_distrib,
    BitVec.shiftLeft_or_distrib]
  exact or_pairs _ _ _ _ _ _ _ _

theorem wide_shiftLeft (a b c d : Octet) : wide a b c d <<< 8 = wide b c d 0 := by
  have hout : a.setWidth 32 <<< 24 <<< 8 = (0 : WChar) := by
    rw [← BitVec.shiftLeft_add]
    exact BitVec.shiftLeft_eq_zero (by decide)
  simp only [wide, BitVec.shiftLeft_or_distrib, hout, ← BitVec.shiftLeft_add]
  simp

theorem shift_or (a b c d o : Octet) :
    (wide a b c d <<< 8) ||| signedChar o =
      wide (b ||| fill o) (c ||| fill o) (d ||| fill o) o := by
  rw [signedChar_eq, wide_shiftLeft, wide_or, show (0 : Octet) ||| o = o from BitVec.zero_or]

theorem wide_octets (a b c d : Octet) : (wide a b c d).setWidth 8 = d ∧
    ((wide a b c d).sshiftRight 8).setWidth 8 = c ∧
    ((wide a b c d).sshiftRight 16).setWidth 8 = b ∧
    ((wide a b c d).sshiftRight 24).setWidth 8 = a := by
  refine ⟨?_, ?_, ?_, ?_⟩ <;> simp only [wide] <;> ext i hi <;> interval_cases i <;>
    simp [BitVec.getElem_sshiftRight]

theorem wide_inj {a b c d a' b' c' d' : Octet} (h : wide a b c d = wide a' b' c' d') :
    a = a' ∧ b = b' ∧ c = c' ∧ d = d' := by
  obtain ⟨h₀, h₁, h₂, h₃⟩ := wide_octets a b c d
  obtain ⟨g₀, g₁, g₂, g₃⟩ := wide_octets a' b' c' d'
  rw [h] at h₀ h₁ h₂ h₃
  exact ⟨h₃.symm.trans g₃, h₂.symm.trans g₂, h₁.symm.trans g₁, h₀.symm.trans g₀⟩

theorem exists_wide (wc : WChar) : ∃ a b c d, wc = wide a b c d := by
  refine ⟨(wc >>> 24).setWidth 8, (wc >>> 16).setWidth 8, (wc >>> 8).setWidth 8, wc.setWidth 8, ?_⟩
  simp only [wide]
  ext i hi
  interval_cases i <;> simp

theorem sshiftRight_eq_zero (a b c d : Octet) :
    (wide a b c d).sshiftRight 16 = 0 ↔ a = 0 ∧ b = 0 := by
  obtain ⟨-, -, h₂, h₃⟩ := wide_octets a b c d
  constructor
  · intro hz
    rw [show (24 : ℕ) = 16 + 8 from rfl, BitVec.sshiftRight_add, hz] at h₃
    rw [hz] at h₂
    exact ⟨h₃.symm, h₂.symm⟩
  · rintro ⟨rfl, rfl⟩
    simp only [wide]
    ext i hi
    interval_cases i <;> simp [BitVec.getElem_sshiftRight, BitVec.msb_eq_getLsbD_last]

/-! ### Both types -/

/-- The two types. -/
inductive WideType
  | bmp | universal
  deriving DecidableEq

namespace WideType

def bEncContent : WideType → List WChar → Deck → Except Fault (ℕ × Deck)
  | bmp => BMPString.bEncContent
  | universal => UniversalString.bEncContent

def bDecContent : WideType → AsnTag → ℕ → ℕ → BerM (List WChar × ℕ)
  | bmp => BMPString.bDecContent
  | universal => UniversalString.bDecContent

/-- The octets of a character, the most significant one first. -/
def charOctets : WideType → WChar → List Octet
  | bmp, wc => [(wc.sshiftRight 8).setWidth 8, wc.setWidth 8]
  | universal, wc => [(wc.sshiftRight 24).setWidth 8, (wc.sshiftRight 16).setWidth 8,
      (wc.sshiftRight 8).setWidth 8, wc.setWidth 8]

def octets (T : WideType) (wstr : List WChar) : List Octet := wstr.flatMap T.charOctets

def width : WideType → ℕ
  | bmp => 2
  | universal => 4

def decodeLoop : WideType → List Octet → List WChar
  | bmp => BMPString.decodeLoop
  | universal => UniversalString.decodeLoop

/-- No octet with its high bit set stands behind one that has not all bits set. In a BMPString
two zero octets stand in front of every character. -/
def Survives : WideType → WChar → Prop
  | bmp, wc => ((wc.sshiftRight 8).setWidth 8).msb = false ∧ (wc.setWidth 8).msb = false
  | universal, wc =>
      let a : Octet := (wc.sshiftRight 24).setWidth 8
      let b : Octet := (wc.sshiftRight 16).setWidth 8
      let c : Octet := (wc.sshiftRight 8).setWidth 8
      let d : Octet := wc.setWidth 8
      (b.msb ∨ c.msb ∨ d.msb → a = 0xFF) ∧ (c.msb ∨ d.msb → b = 0xFF) ∧ (d.msb → c = 0xFF)

theorem length_octets (T : WideType) (wstr : List WChar) :
    (T.octets wstr).length = T.width * wstr.length := by
  induction wstr with
  | nil => rfl
  | cons wc wstr ih =>
      rw [octets, List.flatMap_cons, List.length_append, ← octets, ih, List.length_cons,
        Nat.mul_succ, add_comm]
      cases T <;> rfl

theorem octets_append (T : WideType) (wstr wstr' : List WChar) :
    T.octets (wstr ++ wstr') = T.octets wstr ++ T.octets wstr' := List.flatMap_append

theorem octets_singleton (T : WideType) (wc : WChar) : T.octets [wc] = T.charOctets wc :=
  List.flatMap_singleton _ _

/-- What is written by the loop of BMPString. -/
theorem encodeLoop_bmp {wchars : List WChar} {len : ℕ} {b : Deck} {r : ℕ × Deck}
    (h : BMPString.encodeLoop wchars len b = .ok r) :
    (∀ wc ∈ wchars, wc.sshiftRight 16 = 0) ∧
      Deck.octets r.2 = bmp.octets wchars.reverse ++ Deck.octets b := by
  induction wchars generalizing len b with
  | nil =>
      cases h
      exact ⟨fun _ hwc => absurd hwc List.not_mem_nil, rfl⟩
  | cons wc wchars ih =>
      rw [BMPString.encodeLoop] at h
      split at h
      · cases h
      · next hzero =>
          obtain ⟨hall, hoctets⟩ := ih h
          refine ⟨List.forall_mem_cons.mpr ⟨not_not.mp hzero, hall⟩, ?_⟩
          rw [hoctets, Deck.octets_putByteRvs, Deck.octets_putByteRvs, List.reverse_cons,
            octets_append, octets_singleton, List.append_assoc]
          rfl

theorem encodeLoop_universal (wchars : List WChar) (len : ℕ) (b : Deck) :
    Deck.octets (UniversalString.encodeLoop wchars len b).2 =
      universal.octets wchars.reverse ++ Deck.octets b := by
  induction wchars generalizing len b with
  | nil => rfl
  | cons wc wchars ih =>
      rw [UniversalString.encodeLoop, ih, Deck.octets_putByteRvs, Deck.octets_putByteRvs,
        Deck.octets_putByteRvs, Deck.octets_putByteRvs, List.reverse_cons, octets_append,
        octets_singleton, List.append_assoc]
      rfl

/-- `BEncContent` writes the octets of the characters, and refuses characters of a BMPString
that do not fit into two. -/
theorem bEncContent_eq_ok {T : WideType} {wstr : List WChar} {b b' : Deck} {len : ℕ}
    (h : T.bEncContent wstr b = .ok (len, b')) :
    (T = bmp → ∀ wc ∈ wstr, wc.sshiftRight 16 = 0) ∧
      Deck.octets b' = T.octets wstr ++ Deck.octets b := by
  cases T with
  | bmp =>
      obtain ⟨hall, hoctets⟩ := encodeLoop_bmp h
      rw [List.reverse_reverse] at hoctets
      exact ⟨fun _ wc hwc => hall wc (List.mem_reverse.mpr hwc), hoctets⟩
  | universal =>
      have hoctets := encodeLoop_universal wstr.reverse 0 b
      rw [List.reverse_reverse] at hoctets
      rw [Except.ok.inj h] at hoctets
      exact ⟨(fun h => by cases h), hoctets⟩

/-! ### Decoding characters -/

theorem or_fill (x o : Octet) : x ||| fill o = if o.msb then 0xFF else x := by
  rw [fill]
  cases o.msb
  · exact BitVec.or_zero
  · exact BitVec.or_allOnes

/-- The character that BMPString makes of the octets of a character. -/
theorem decode_bmp {wc : WChar} (hzero : wc.sshiftRight 16 = 0) :
    (signedChar ((wc.sshiftRight 8).setWidth 8) <<< 8) ||| signedChar (wc.setWidth 8) = wc ↔
      bmp.Survives wc := by
  obtain ⟨a, b, c, d, rfl⟩ := exists_wide wc
  obtain ⟨rfl, rfl⟩ := (sshiftRight_eq_zero a b c d).mp hzero
  obtain ⟨h₀, h₁, -, -⟩ := wide_octets 0 0 c d
  rw [Survives, h₀, h₁, signedChar_eq c, shift_or]
  constructor
  · intro h
    -- nothing is filled into the octet on top
    obtain ⟨htop, -, -, -⟩ := wide_inj h
    cases hc : c.msb <;> cases hd : d.msb <;> simp [fill, hc, hd] at htop ⊢
  · rintro ⟨hc, hd⟩
    simp [fill, hc, hd]

theorem decode_universal (wc : WChar) :
    ((((((((0 : WChar) <<< 8) ||| signedChar ((wc.sshiftRight 24).setWidth 8)) <<< 8) |||
        signedChar ((wc.sshiftRight 16).setWidth 8)) <<< 8) |||
        signedChar ((wc.sshiftRight 8).setWidth 8)) <<< 8) ||| signedChar (wc.setWidth 8) = wc ↔
      universal.Survives wc := by
  obtain ⟨a, b, c, d, rfl⟩ := exists_wide wc
  obtain ⟨h₀, h₁, h₂, h₃⟩ := wide_octets a b c d
  rw [Survives, h₀, h₁, h₂, h₃, show ((0 : WChar) <<< 8) = 0 from rfl,
    show (0 : WChar) ||| signedChar a = signedChar a from BitVec.zero_or,
    signedChar_eq a, shift_or, shift_or, shift_or]
  have hfilled : wide (a ||| fill b ||| fill c ||| fill d) (b ||| fill c ||| fill d)
      (c ||| fill d) d = wide a b c d ↔ a ||| fill b ||| fill c ||| fill d = a ∧
        b ||| fill c ||| fill d = b ∧ c ||| fill d = c := by
    constructor
    · intro h
      obtain ⟨ha, hb, hc, -⟩ := wide_inj h
      exact ⟨ha, hb, hc⟩
    · rintro ⟨ha, hb, hc⟩
      rw [ha, hb, hc]
  rw [hfilled]
  simp only [or_fill]
  cases b.msb <;> cases c.msb <;> cases d.msb <;> simp [eq_comm]

theorem decodeLoop_octets_iff (T : WideType) {wstr : List WChar}
    (hrep : T = bmp → ∀ wc ∈ wstr, wc.sshiftRight 16 = 0) :
    T.decodeLoop (T.octets wstr) = wstr ↔ ∀ wc ∈ wstr, T.Survives wc := by
  induction wstr with
  | nil => cases T <;> simp [octets, decodeLoop, BMPString.decodeLoop, UniversalString.decodeLoop]
  | cons wc wstr ih =>
      have ih' := ih fun hT wc' hwc => hrep hT wc' (List.mem_cons_of_mem _ hwc)
      rw [List.forall_mem_cons, ← ih', octets, List.flatMap_cons, ← octets]
      cases T with
      | bmp =>
          rw [← decode_bmp (hrep rfl wc List.mem_cons_self)]
          exact List.cons_eq_cons
      | universal =>
          rw [← decode_universal wc]
          exact List.cons_eq_cons

end WideType

end Esnacc
