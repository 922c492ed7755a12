import Esnacc.Per.General
import Esnacc.Runtime.Strings

/-!
Octet strings and bit strings without a size constraint: the unit of an
`AsnOcts` is an octet, that of an `AsnBits` a bit.
-/

namespace Esnacc

open BitString StreamCodec AsnBufBits

/-! ### Octet strings -/

namespace AsnOcts

def putGeneral (x : AsnOcts) (offset count : ℕ) : PerM ℕ :=
  PerM.putBits (x.mStr.drop offset) (count * 8)

def takeGeneral (templen : ℕ) (x : AsnOcts) : PerM (AsnOcts × ℕ) := do
  let seg ← PerM.getBits (templen * 8)
  return (⟨x.mStr ++ seg.take templen⟩, templen * 8)

def encodeGeneral (x : AsnOcts) : PerM ℕ := Esnacc.encodeGeneral x.putGeneral x.mStr.length

/-- `DecodeGeneral` clears the string first, whatever it held. -/
def decodeGeneral (_ : AsnOcts) (bitsDecoded : ℕ) : PerM (AsnOcts × ℕ) :=
  Esnacc.decodeGeneral octetAlignReadUncounted takeGeneral ⟨[]⟩ bitsDecoded

variable {bAligned : Bool}

theorem puts_putGeneral (x : AsnOcts) (pre : List Bool) {offset count : ℕ}
    (h : offset + count ≤ x.mStr.length) :
    Puts bAligned pre (x.putGeneral offset count) (octetBits ((x.mStr.drop offset).take count)) := by
  have hseg : count * 8 ≤ 8 * (x.mStr.drop offset).length := by
    rw [List.length_drop]
    omega
  refine (emits_putBits pre hseg).of_eq ?_ ?_
  · rw [length_octetBits, List.length_take, List.length_drop]
    omega
  · rw [octetBits_take, Nat.mul_comm]

theorem takes_takeGeneral (pos : ℕ) (x : AsnOcts) (os : List Octet) :
    Takes (Unread bAligned) pos (octetBits os) (takeGeneral os.length x)
      (⟨x.mStr ++ os⟩, (octetBits os).length) := by
  unfold takeGeneral
  rw [Nat.mul_comm os.length 8]
  refine ((takes_octets pos os).bind_pure _).of_eq ?_ rfl
  simp

theorem unitCodec (x : AsnOcts) :
    UnitCodec x.putGeneral takeGeneral (fun n acc => acc.mStr = x.mStr.take n) x.mStr.length
      bAligned where
  stretch pre offset count _ htotal := by
    refine ⟨_, x.puts_putGeneral pre htotal, fun acc hacc =>
      ⟨⟨acc.mStr ++ (x.mStr.drop offset).take count⟩, ?_, ?_⟩⟩
    · show acc.mStr ++ (x.mStr.drop offset).take count = _
      rw [hacc, List.take_add]
    · have htake := @takes_takeGeneral bAligned pre.length acc ((x.mStr.drop offset).take count)
      have hlen : ((x.mStr.drop offset).take count).length = count := by
        rw [List.length_take, List.length_drop]
        omega
      rwa [hlen] at htake
  nothing _ pos acc hacc := by
    refine ⟨⟨acc.mStr ++ []⟩, ?_, takes_takeGeneral pos acc []⟩
    simpa using hacc

theorem general_roundTrip (x y : AsnOcts) (pre : List Bool) :
    ∃ xs, Puts bAligned pre x.encodeGeneral xs ∧
      Gets bAligned pre.length xs y.decodeGeneral x := by
  obtain ⟨xs, a, hputs, ha, hgets⟩ := Esnacc.general_roundTrip takes_octetAlignReadUncounted
    x.unitCodec pre (show (⟨[]⟩ : AsnOcts).mStr = x.mStr.take 0 from List.take_zero.symm)
  obtain rfl : a = x := AsnOcts.ext (by simpa using ha)
  exact ⟨xs, hputs, hgets⟩

end AsnOcts

/-! ### Bit strings -/

namespace AsnBits

def putGeneral (x : AsnBits) (offset count : ℕ) : PerM ℕ :=
  PerM.putBits (x.bits.drop (offset / 8)) count

/-- `Allocate`: makes room for `size` more bits and keeps the octets in use. -/
def allocate (x : AsnBits) (size : ℕ) : AsnBits where
  bits := x.bits.take x.length ++
    List.replicate ((x.bitLen + size) / 8 + 1 - (x.bits.take x.length).length) 0
  bitLen := x.bitLen + size
  nblFlag := x.nblFlag
  allocated := by
    rw [List.length_append, List.length_replicate]
    omega

/-- The `memcpy` into the octets from `offset` on. -/
def copyIn (x : AsnBits) (offset : ℕ) (seg : List Octet) : AsnBits :=
  { x with
    bits := overwrite x.bits (offset / 8) seg
    allocated := by simpa using x.allocated }

/-- The loop keeps the number of bits read so far beside the string. -/
def takeGeneral (templen : ℕ) (acc : AsnBits × ℕ) : PerM ((AsnBits × ℕ) × ℕ) := do
  let x := acc.1.allocate templen
  let seg ← PerM.getBits templen
  return ((x.copyIn acc.2 (seg.take ((templen + 7) / 8)), acc.2 + templen), templen)

def encodeGeneral (x : AsnBits) : PerM ℕ := Esnacc.encodeGeneral x.putGeneral x.encLen

def decodeGeneral (x : AsnBits) (bitsDecoded : ℕ) : PerM (AsnBits × ℕ) := do
  let (acc, bitsDecoded) ←
    Esnacc.decodeGeneral octetAlignReadUncounted takeGeneral (x.clear, 0) bitsDecoded
  return (acc.1, bitsDecoded)

variable {bAligned : Bool}

/-- What the loop has put together after `n` bits. -/
def Holds (xs : List Bool) (n : ℕ) (acc : AsnBits × ℕ) : Prop :=
  acc.2 = n ∧ acc.1.bitLen = n ∧ acc.1.value = xs.take n

theorem puts_putGeneral (x : AsnBits) (pre : List Bool) {offset count : ℕ} (hoffset : 8 ∣ offset)
    (h : offset + count ≤ 8 * x.bits.length) :
    Puts bAligned pre (x.putGeneral offset count)
      (((octetBits x.bits).drop offset).take count) := by
  have hseg : count ≤ 8 * (x.bits.drop (offset / 8)).length := by
    rw [List.length_drop]
    omega
  have hlen : (((octetBits x.bits).drop offset).take count).length = count := by
    rw [List.length_take, List.length_drop, length_octetBits]
    omega
  refine (emits_putBits pre hseg).of_eq hlen.symm ?_
  rw [octetBits_drop, Nat.mul_div_cancel' hoffset]

/-- A stretch of bits that begins at an octet is appended to the string. -/
theorem value_copyIn {x : AsnBits} {xs : List Bool} (hx : 8 ∣ x.bitLen) :
    ((x.allocate xs.length).copyIn x.bitLen (pack xs)).value = x.value ++ xs := by
  obtain ⟨k, hk⟩ := hx
  have hroom := x.allocated
  have hlen : x.length = k := by
    rw [length]
    omega
  have hkeep : (x.bits.take k).length = k := by
    rw [List.length_take]
    omega
  have hspace : (x.bitLen + xs.length) / 8 + 1 - k =
      (pack xs).length + ((x.bitLen + xs.length) / 8 + 1 - k - (pack xs).length) := by
    rw [length_pack]
    omega
  have hfront : octetBits (x.bits.take k) = x.value := by
    rw [octetBits_take, value, hk]
  have hoffset : x.bitLen / 8 = k := by omega
  show (octetBits (overwrite (x.bits.take x.length ++ List.replicate _ 0) (x.bitLen / 8)
    (pack xs))).take (x.bitLen + xs.length) = _
  rw [hlen, hkeep, hspace, List.replicate_add, hoffset]
  have hwrite := overwrite_append (x.bits.take k) (List.replicate (pack xs).length 0) (pack xs)
    (List.replicate ((x.bitLen + xs.length) / 8 + 1 - k - (pack xs).length) 0) (by simp)
  rw [hkeep] at hwrite
  rw [hwrite, octetBits_append, octetBits_append, hfront, octetBits_pack, List.append_assoc,
    ← List.append_assoc x.value, List.take_left' (by simp)]

theorem takes_takeGeneral (pos : ℕ) {zs xs : List Bool} {acc : AsnBits × ℕ} {n : ℕ}
    (hacc : Holds zs n acc) (hn : 8 ∣ n) (hxs : zs.take (n + xs.length) = zs.take n ++ xs) :
    ∃ acc', Holds zs (n + xs.length) acc' ∧
      Takes (Unread bAligned) pos xs (takeGeneral xs.length acc) (acc', xs.length) := by
  obtain ⟨hoffset, hlen, hvalue⟩ := hacc
  have hseg : (pack xs ++ [0]).take ((xs.length + 7) / 8) = pack xs :=
    List.take_left' (length_pack xs)
  refine ⟨((acc.1.allocate xs.length).copyIn acc.2 (pack xs), acc.2 + xs.length),
    ⟨congrArg (· + xs.length) hoffset, congrArg (· + xs.length) hlen, ?_⟩, ?_⟩
  · show ((acc.1.allocate xs.length).copyIn acc.2 (pack xs)).value = _
    rw [hoffset, ← hlen, value_copyIn (hlen ▸ hn), hvalue, hlen, hxs]
  · refine ((takes_getBits pos xs).bind_pure _).of_eq ?_ rfl
    rw [hseg]

theorem unitCodec (x : AsnBits) :
    UnitCodec x.putGeneral takeGeneral (Holds (octetBits x.bits)) x.encLen bAligned where
  stretch pre offset count hoffset htotal := by
    have height : 8 ∣ offset := Dvd.dvd.trans (by decide) hoffset
    have hle := htotal.trans x.encLen_le
    have hlen : (((octetBits x.bits).drop offset).take count).length = count := by
      rw [List.length_take, List.length_drop, length_octetBits]
      omega
    refine ⟨_, x.puts_putGeneral pre height hle, fun acc hacc => ?_⟩
    have htake := @takes_takeGeneral bAligned pre.length _
      (((octetBits x.bits).drop offset).take count) acc offset hacc height
      (by rw [hlen, List.take_add])
    rwa [hlen] at htake ⊢
  nothing htotal pos acc hacc :=
    @takes_takeGeneral bAligned pos _ [] acc _ hacc (Dvd.dvd.trans (by decide) htotal) (by simp)

/-- The bits that are read back are those the encoder takes from the octets. -/
theorem general_roundTrip (x y : AsnBits) (pre : List Bool) :
    ∃ xs z, Puts bAligned pre x.encodeGeneral xs ∧ z.value = (octetBits x.bits).take x.encLen ∧
      Gets bAligned pre.length xs y.decodeGeneral z := by
  have hcleared : Holds (octetBits x.bits) 0 (y.clear, 0) := ⟨rfl, rfl, rfl⟩
  obtain ⟨xs, acc, hputs, ⟨-, -, hvalue⟩, hgets⟩ := Esnacc.general_roundTrip
    takes_octetAlignReadUncounted x.unitCodec pre hcleared
  exact ⟨xs, acc.1, hputs, hvalue, fun c => (hgets c).bind_pure _⟩

end AsnBits

/-! ### Fragmented contents -/

end Esnacc
