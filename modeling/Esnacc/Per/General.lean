import Esnacc.Per.BitQueue

/-!
The general length determinant of the packed encoding rules, and contents cut
into fragments of 16k. `PERGeneral`, `AsnOcts` and `AsnBits` each carry a copy
of the two loops, which differ in how a fragment is written and read; the loops
are modelled once over these.
-/

namespace Esnacc

open BitString StreamCodec AsnBufBits

def l16k : ℕ := 16384

/-! ### Length determinants -/

/-- Lengths up to 127, in one octet. -/
def pEncDefLenTo127 (len : ℕ) : PerM ℕ := do
  let _ ← PerM.putBits [BitVec.ofNat 8 len] 8
  return 8

/-- A number of fragments of 16k, in one octet. -/
def pEncLen16kFragment (len : ℕ) : PerM ℕ := do
  let _ ← PerM.putBits [0xC0 ||| BitVec.ofNat 8 len] 8
  return 8

/-- Lengths from 128 up to 16k, in two octets. -/
def pEncLen1to16k (len : ℕ) : PerM ℕ := do
  let _ ← PerM.putBits [BitVec.ofNat 8 (len >>> 8) ||| 0x80] 8
  let _ ← PerM.putBits [BitVec.ofNat 8 len] 8
  return 16

/-! ### Fragments -/

/-- A length determinant between octet boundaries, and the `count` units of the
contents from `offset` on. -/
def encodeFragment (put : ℕ → ℕ → PerM ℕ) (pEncLen : PerM ℕ) (offset count : ℕ) : PerM ℕ := do
  let pad ← PerM.octetAlignWrite
  let len ← pEncLen
  let pad' ← PerM.octetAlignWrite
  let written ← put offset count
  return pad + len + pad' + written

/-- The loop over the fragments of 64k. -/
def encode64kFragments (put : ℕ → ℕ → PerM ℕ) : ℕ → ℕ → PerM ℕ
  | 0, _ => return 0
  | x + 1, offset => do
      let len ← encodeFragment put (pEncLen16kFragment 4) offset (4 * l16k)
      let rest ← encode64kFragments put x (offset + 4 * l16k)
      return len + rest

/-- What is left after the fragments. -/
def encodeLastFragment (put : ℕ → ℕ → PerM ℕ) (offset tempLen : ℕ) : PerM ℕ :=
  if tempLen < 128 then encodeFragment put (pEncDefLenTo127 tempLen) offset tempLen
  else if tempLen < l16k then encodeFragment put (pEncLen1to16k tempLen) offset tempLen
  else return 0

/-- The empty fragment after a multiple of 16k. -/
def encodeTerminator : PerM ℕ := do
  let pad ← PerM.octetAlignWrite
  let len ← PerM.putBits [0] 8
  return pad + len

/-- The fragment of 16k, 32k or 48k, if there is one. -/
def encode16kFragments (put : ℕ → ℕ → PerM ℕ) (offset count : ℕ) : PerM ℕ :=
  if count ≠ 0 then encodeFragment put (pEncLen16kFragment count) offset (l16k * count)
  else return 0

/-- What follows the fragments. -/
def encodeRest (put : ℕ → ℕ → PerM ℕ) (offset tempLen : ℕ) : PerM ℕ :=
  if tempLen = 0 then encodeTerminator else encodeLastFragment put offset tempLen

/-- `EncodeGeneral` for contents of `total` units. -/
def encodeGeneral (put : ℕ → ℕ → PerM ℕ) (total : ℕ) : PerM ℕ :=
  if total < l16k then encodeLastFragment put 0 total
  else do
    let x := total / (4 * l16k)
    let tempLen := total - x * (4 * l16k)
    let count := tempLen / l16k
    let len ← encode64kFragments put x 0
    let len' ← encode16kFragments put (x * (4 * l16k)) count
    let rest ← encodeRest put (x * (4 * l16k) + l16k * count) (tempLen - l16k * count)
    return len + len' + rest

/-- The loop of `DecodeGeneral`. A pass starts with what stands before the loop
and at the end of its body: the alignment and the first octet of the length.
`align` is the alignment after the length of a fragment, which not every copy
of the loop counts. -/
def decodeFragments {A : Type} (align : PerM ℕ) (take : ℕ → A → PerM (A × ℕ)) :
    ℕ → A → ℕ → PerM (A × ℕ)
  | 0, _, _ => throw (bufferException "Trying to retrieve more bits than in the buffer")
  | passes + 1, acc, bitsDecoded => do
      let pad ← PerM.octetAlignRead
      let seg ← PerM.getBits 8
      let bitsDecoded := bitsDecoded + pad + 8
      if seg.headD 0 &&& 0xC0 = 0xC0 then
        let templen := (seg.headD 0 &&& 0x3F).toNat * l16k
        let pad ← align
        let (acc, n) ← take templen acc
        decodeFragments align take passes acc (bitsDecoded + pad + n)
      else if seg.headD 0 &&& 0xC0 = 0x80 then
        let low ← PerM.getBits 8
        let templen := (seg.headD 0 &&& 0x3F).toNat <<< 8 ||| (low.headD 0).toNat
        let pad ← PerM.octetAlignRead
        let (acc, n) ← take templen acc
        return (acc, bitsDecoded + 8 + pad + n)
      else
        let templen := (seg.headD 0 &&& 0x7F).toNat
        let pad ← PerM.octetAlignRead
        let (acc, n) ← take templen acc
        return (acc, bitsDecoded + pad + n)

/-- `DecodeGeneral` into an object that has been cleared. A pass consumes eight
bits at least, so the bits in the buffer bound the number of passes. -/
def decodeGeneral {A : Type} (align : PerM ℕ) (take : ℕ → A → PerM (A × ℕ)) (cleared : A)
    (bitsDecoded : ℕ) : PerM (A × ℕ) := do
  let passes ← PerM.bitsLeft
  decodeFragments align take (passes + 1) cleared bitsDecoded

/-- An alignment whose padding is left out of the count. -/
def octetAlignReadUncounted : PerM ℕ := do
  let _ ← PerM.octetAlignRead
  return 0

/-! ### Contents of single units -/

/-- The loop of `PERGeneral` over `Interpret`. -/
def interpretUnits (interpret : ℕ → PerM ℕ) (offset : ℕ) : ℕ → PerM ℕ
  | 0 => return 0
  | y + 1 => do
      let len ← interpret offset
      let rest ← interpretUnits interpret (offset + 1) y
      return len + rest

/-- The loop of `PERGeneral` over `Deterpret`. -/
def deterpretUnits {A : Type} (deterpret : A → PerM (A × ℕ)) : ℕ → A → PerM (A × ℕ)
  | 0, acc => return (acc, 0)
  | templen + 1, acc => do
      let (acc, len) ← deterpret acc
      let (acc, rest) ← deterpretUnits deterpret templen acc
      return (acc, len + rest)

/-! ### Counted programs -/

/-- The writer appends `xs` and returns their number. -/
def Puts (bAligned : Bool) (pre : List Bool) (m : PerM ℕ) (xs : List Bool) : Prop :=
  Emits (Written bAligned) pre m xs.length xs

/-- The reader consumes `xs`, returns `a` and adds their number to its count. -/
def Gets {A : Type} (bAligned : Bool) (pos : ℕ) (xs : List Bool) (m : ℕ → PerM (A × ℕ)) (a : A) :
    Prop :=
  ∀ count, Takes (Unread bAligned) pos xs (m count) (a, count + xs.length)

section Headers

variable {bAligned : Bool}

@[simp] theorem padding_add_padding (pos : ℕ) :
    padding bAligned (pos + padding bAligned pos) = 0 := by
  cases bAligned with
  | false => rfl
  | true => simp only [padding, if_true]; omega

@[simp] theorem padding_add_eight_mul (pos n : ℕ) :
    padding bAligned (pos + 8 * n) = padding bAligned pos := by
  cases bAligned with
  | false => rfl
  | true => simp only [padding, if_true]; omega

theorem Puts.add {pre xs ys : List Bool} {m₁ m₂ : PerM ℕ} (h₁ : Puts bAligned pre m₁ xs)
    (h₂ : Puts bAligned (pre ++ xs) m₂ ys) :
    Puts bAligned pre (do let len ← m₁; let rest ← m₂; return len + rest) (xs ++ ys) :=
  (Emits.bind h₁ (Emits.bind h₂ (Emits.pure _ (xs.length + ys.length)))).of_eq (by simp) (by simp)

theorem emits_isAligned (pre : List Bool) :
    Emits (Written bAligned) pre PerM.isAligned bAligned [] := by
  intro b hb
  refine ⟨b, ?_, by simpa using hb⟩
  rw [← hb.bAlign]
  rfl

theorem takes_isAligned (pos : ℕ) : Takes (Unread bAligned) pos [] PerM.isAligned bAligned := by
  intro b rest hb
  refine ⟨b, ?_, by simpa using hb⟩
  rw [← hb.bAlign]
  rfl

@[simp] theorem lift_ok {A : Type} (a : A) : (StateT.lift (.ok a) : PerM A) = pure a := rfl

theorem padding_lt (bAligned : Bool) (pos : ℕ) : padding bAligned pos < 8 := by
  unfold padding
  split <;> omega

theorem lift_run_eq_ok {A : Type} {m : Except Fault A} {a : A} {b b' : AsnBufBits}
    (h : (StateT.lift m : PerM A).run b = .ok (a, b')) : m = .ok a ∧ b = b' := by
  cases m with
  | error e => cases h
  | ok a' =>
      obtain ⟨rfl, rfl⟩ := Prod.mk.inj (Except.ok.inj h)
      exact ⟨rfl, rfl⟩

theorem puts_octetAlignWrite (pre : List Bool) :
    Puts bAligned pre PerM.octetAlignWrite
      (List.replicate (padding bAligned pre.length) false) :=
  (emits_octetAlignWrite pre).of_eq (by simp) rfl

theorem puts_octets (pre : List Bool) (os : List Octet) :
    Puts bAligned pre (PerM.putBits os (8 * os.length)) (octetBits os) := by
  have h := @emits_putBits bAligned pre os (8 * os.length) le_rfl
  rw [List.take_of_length_le (by simp)] at h
  exact h.of_eq (by simp) rfl

theorem puts_octet (pre : List Bool) (o : Octet) :
    Puts bAligned pre (PerM.putBits [o] 8) (bitsOf o) := by
  simpa using puts_octets pre [o]

theorem takes_octets (pos : ℕ) (os : List Octet) :
    Takes (Unread bAligned) pos (octetBits os) (PerM.getBits (8 * os.length)) (os ++ [0]) := by
  have h := @takes_getBits bAligned pos (octetBits os)
  rwa [length_octetBits, pack_octetBits] at h

theorem takes_octet (pos : ℕ) (o : Octet) :
    Takes (Unread bAligned) pos (bitsOf o) (PerM.getBits 8) [o, 0] := by
  simpa using takes_octets pos [o]

theorem puts_pEncDefLenTo127 (pre : List Bool) (len : ℕ) :
    Puts bAligned pre (pEncDefLenTo127 len) (octetBits [BitVec.ofNat 8 len]) :=
  ((puts_octet pre _).bind (Emits.pure _ 8)).of_eq (by simp) (by simp)

theorem puts_pEncLen16kFragment (pre : List Bool) (len : ℕ) :
    Puts bAligned pre (pEncLen16kFragment len) (octetBits [0xC0 ||| BitVec.ofNat 8 len]) :=
  ((puts_octet pre _).bind (Emits.pure _ 8)).of_eq (by simp) (by simp)

theorem puts_pEncLen1to16k (pre : List Bool) (len : ℕ) :
    Puts bAligned pre (pEncLen1to16k len)
      (octetBits [BitVec.ofNat 8 (len >>> 8) ||| 0x80, BitVec.ofNat 8 len]) :=
  ((puts_octet pre _).bind ((puts_octet _ _).bind (Emits.pure _ 16))).of_eq (by simp) (by simp)

/-- A fragment, as it is written: padding, length determinant, contents. -/
theorem puts_encodeFragment {pre : List Bool} {pEncLen : PerM ℕ} {hs : List Octet}
    {put : ℕ → ℕ → PerM ℕ} {offset count : ℕ} {xs : List Bool}
    (hlen : ∀ pre, Puts bAligned pre pEncLen (octetBits hs))
    (hput : Puts bAligned
      (pre ++ List.replicate (padding bAligned pre.length) false ++ octetBits hs)
      (put offset count) xs) :
    Puts bAligned pre (encodeFragment put pEncLen offset count)
      (List.replicate (padding bAligned pre.length) false ++ (octetBits hs ++ xs)) := by
  have hpad := @puts_octetAlignWrite bAligned
    (pre ++ List.replicate (padding bAligned pre.length) false ++ octetBits hs)
  simp only [List.length_append, List.length_replicate, length_octetBits, padding_add_eight_mul,
    padding_add_padding, List.replicate_zero] at hpad
  refine Emits.of_eq ((puts_octetAlignWrite pre).bind ((hlen _).bind (hpad.bind
    (Emits.bind (by simpa [Puts] using hput) (Emits.pure _ _))))) ?_ (by simp)
  simp
  omega

theorem takes_alignedOctet (pos : ℕ) (o : Octet) {A : Type} {k : ℕ → List Octet → PerM A} {a : A}
    {xs : List Bool}
    (hk : Takes (Unread bAligned) (pos + padding bAligned pos + 8) xs
      (k (padding bAligned pos) [o, 0]) a) :
    Takes (Unread bAligned) pos
      (List.replicate (padding bAligned pos) false ++ (bitsOf o ++ xs))
      (do
        let pad ← PerM.octetAlignRead
        let seg ← PerM.getBits 8
        k pad seg) a := by
  refine (takes_octetAlignRead pos (by simp)).bind ((takes_octet _ o).bind ?_)
  simpa using hk

/-- After the length determinant there is nothing left to skip. -/
theorem takes_alignment (pos n : ℕ) :
    Takes (Unread bAligned) (pos + padding bAligned pos + 8 * n) [] PerM.octetAlignRead 0 := by
  have hnone : ([] : List Bool).length = padding bAligned (pos + padding bAligned pos + 8 * n) := by
    simp
  have h := takes_octetAlignRead _ hnone
  rwa [← hnone] at h

theorem takes_octetAlignReadUncounted (pos n : ℕ) :
    Takes (Unread bAligned) (pos + padding bAligned pos + 8 * n) [] octetAlignReadUncounted 0 :=
  (takes_alignment pos n).bind (Takes.pure _ 0)

end Headers

/-! ### The two loops -/

section Loops

variable {A : Type} {bAligned : Bool} (align : PerM ℕ) (put : ℕ → ℕ → PerM ℕ)
  (take : ℕ → A → PerM (A × ℕ)) (holds : ℕ → A → Prop) (total : ℕ)

/-- Every stretch of units that starts at a fragment is read back as it was
written; `holds n a` says that the object `a` holds the first `n` units. -/
structure UnitCodec (bAligned : Bool) : Prop where
  stretch : ∀ pre offset count, l16k ∣ offset → offset + count ≤ total →
    ∃ xs, Puts bAligned pre (put offset count) xs ∧ ∀ acc, holds offset acc →
      ∃ acc', holds (offset + count) acc' ∧
        Takes (Unread bAligned) pre.length xs (take count acc) (acc', xs.length)
  nothing : l16k ∣ total → ∀ pos acc, holds total acc →
    ∃ acc', holds total acc' ∧ Takes (Unread bAligned) pos [] (take 0 acc) (acc', 0)

/-- From an object that holds the first `offset` units on, `ys` is read to the
end of the contents. -/
def Finishes (bAligned : Bool) (pos : ℕ) (ys : List Bool) (offset : ℕ) : Prop :=
  ∀ acc, holds offset acc → ∃ a, holds total a ∧ ∀ passes, ys.length < passes →
    Gets bAligned pos ys (decodeFragments align take passes acc) a

/-- The writer moves on from one fragment to another, and the reader with it. -/
def Advances (bAligned : Bool) (pre : List Bool) (m : PerM ℕ) (offset offset' : ℕ) : Prop :=
  ∃ xs, Puts bAligned pre m xs ∧ ∀ ys,
    Finishes align take holds total bAligned (pre.length + xs.length) ys offset' →
      Finishes align take holds total bAligned pre.length (xs ++ ys) offset

/-- The writer finishes the contents, and the reader with it. -/
def Completes (bAligned : Bool) (pre : List Bool) (m : PerM ℕ) (offset : ℕ) : Prop :=
  ∃ xs, Puts bAligned pre m xs ∧ Finishes align take holds total bAligned pre.length xs offset

variable {align put take holds total}

theorem Advances.pure (pre : List Bool) (offset : ℕ) :
    Advances align take holds total bAligned pre (pure 0) offset offset :=
  ⟨[], Emits.pure pre 0, fun _ hys => hys⟩

theorem Advances.bind {pre : List Bool} {m₁ m₂ : PerM ℕ} {offset₁ offset₂ offset₃ : ℕ}
    (h₁ : Advances align take holds total bAligned pre m₁ offset₁ offset₂)
    (h₂ : ∀ pre, Advances align take holds total bAligned pre m₂ offset₂ offset₃) :
    Advances align take holds total bAligned pre
      (do let len ← m₁; let rest ← m₂; return len + rest) offset₁ offset₃ := by
  obtain ⟨xs, hxs, hread₁⟩ := h₁
  obtain ⟨ys, hys, hread₂⟩ := h₂ (pre ++ xs)
  refine ⟨xs ++ ys, hxs.add hys, ?_⟩
  intro zs hzs
  rw [List.append_assoc]
  refine hread₁ _ ?_
  rw [← List.length_append]
  refine hread₂ zs ?_
  simpa [Nat.add_assoc] using hzs

theorem Advances.complete {pre : List Bool} {m₁ m₂ : PerM ℕ} {offset offset' : ℕ}
    (h₁ : Advances align take holds total bAligned pre m₁ offset offset')
    (h₂ : ∀ pre, Completes align take holds total bAligned pre m₂ offset') :
    Completes align take holds total bAligned pre
      (do let len ← m₁; let rest ← m₂; return len + rest) offset := by
  obtain ⟨xs, hxs, hread₁⟩ := h₁
  obtain ⟨ys, hys, hread₂⟩ := h₂ (pre ++ xs)
  refine ⟨xs ++ ys, hxs.add hys, ?_⟩
  refine hread₁ _ ?_
  rwa [← List.length_append]

variable (halign : ∀ pos n,
    Takes (Unread bAligned) (pos + padding bAligned pos + 8 * n) [] align 0)
  (hcodec : UnitCodec put take holds total bAligned)

include halign hcodec in
theorem Advances.fragment (pre : List Bool) {count offset : ℕ} (hoffset : l16k ∣ offset)
    (hcount : 0 < count ∧ count ≤ 4) (htotal : offset + count * l16k ≤ total) :
    Advances align take holds total bAligned pre
      (encodeFragment put (pEncLen16kFragment count) offset (count * l16k)) offset
      (offset + count * l16k) := by
  obtain ⟨xs, hput, hread⟩ := hcodec.stretch
    (pre ++ List.replicate (padding bAligned pre.length) false ++
      octetBits [0xC0 ||| BitVec.ofNat 8 count]) offset (count * l16k) hoffset htotal
  refine ⟨_, puts_encodeFragment (puts_pEncLen16kFragment · count) hput, ?_⟩
  intro ys hys acc hacc
  obtain ⟨acc', hacc', htake⟩ := hread acc hacc
  have hpos : (pre ++ List.replicate (padding bAligned pre.length) false ++
      octetBits [0xC0 ||| BitVec.ofNat 8 count]).length =
        pre.length + padding bAligned pre.length + 8 := by simp; omega
  have hpos' : pre.length + (List.replicate (padding bAligned pre.length) false ++
      (octetBits [0xC0 ||| BitVec.ofNat 8 count] ++ xs)).length =
        pre.length + padding bAligned pre.length + 8 + xs.length := by simp; omega
  rw [hpos] at htake
  rw [hpos'] at hys
  obtain ⟨a, ha, hfinish⟩ := hys acc' hacc'
  refine ⟨a, ha, fun passes hpasses c => ?_⟩
  obtain ⟨passes, rfl⟩ : ∃ n, passes = n + 1 := ⟨passes - 1, by omega⟩
  have hhead : (0xC0 ||| BitVec.ofNat 8 count : Octet) &&& 0xC0 = 0xC0 ∧
      ((0xC0 ||| BitVec.ofNat 8 count : Octet) &&& 0x3F).toNat = count := by
    obtain ⟨hpos, hle⟩ := hcount
    interval_cases count <;> decide
  have hdata : (List.replicate (padding bAligned pre.length) false ++
      (octetBits [0xC0 ||| BitVec.ofNat 8 count] ++ xs)) ++ ys =
      List.replicate (padding bAligned pre.length) false ++
        (bitsOf (0xC0 ||| BitVec.ofNat 8 count) ++ ([] ++ (xs ++ ys))) := by simp
  unfold decodeFragments
  rw [hdata]
  refine takes_alignedOctet pre.length _ ?_
  simp only [List.headD_cons, hhead, if_true]
  refine (halign pre.length 1).bind ?_
  rw [List.length_nil, Nat.add_zero]
  refine htake.bind ?_
  refine (hfinish passes (by simp at hpasses; omega) _).of_eq ?_ rfl
  simp
  omega

include halign hcodec in
theorem Advances.fragments (pre : List Bool) (x : ℕ) {offset : ℕ} (hoffset : l16k ∣ offset)
    (htotal : offset + x * (4 * l16k) ≤ total) :
    Advances align take holds total bAligned pre (encode64kFragments put x offset) offset
      (offset + x * (4 * l16k)) := by
  induction x generalizing pre offset with
  | zero =>
      rw [Nat.zero_mul, Nat.add_zero]
      exact Advances.pure pre offset
  | succ x ih =>
      have hstep : offset + (x + 1) * (4 * l16k) = offset + 4 * l16k + x * (4 * l16k) := by ring
      rw [hstep] at htotal ⊢
      exact (Advances.fragment halign hcodec pre hoffset (by decide) (by omega)).bind
        fun pre => ih pre (hoffset.add (Dvd.intro_left 4 rfl)) htotal

/-- What follows the length determinant in the last pass. -/
theorem takes_contents {pos k count c : ℕ} {acc acc' : A} {xs : List Bool}
    (htake : Takes (Unread bAligned) (pos + padding bAligned pos + 8 * k) xs (take count acc)
      (acc', xs.length)) :
    Takes (Unread bAligned) (pos + padding bAligned pos + 8 * k) xs
      (do
        let pad ← PerM.octetAlignRead
        let (acc, n) ← take count acc
        return (acc, c + pad + n)) (acc', c + xs.length) := by
  have hrun := (@takes_alignment bAligned pos k).bind
    (f := fun pad => do
      let (acc, n) ← take count acc
      return (acc, c + pad + n)) (htake.bind (Takes.pure _ (acc', c + 0 + xs.length)))
  exact hrun.of_eq (by simp) (by simp)

/-- The pass of the loop that does not go on to another one. -/
theorem finishes_of_last {pos : ℕ} {hs : List Octet} {ys xs : List Bool} {offset count : ℕ}
    (hdata : ys = List.replicate (padding bAligned pos) false ++ (octetBits hs ++ xs))
    (hlen : count < 128 ∧ hs = [BitVec.ofNat 8 count] ∨
      count < l16k ∧ hs = [BitVec.ofNat 8 (count >>> 8) ||| 0x80, BitVec.ofNat 8 count])
    (hread : ∀ acc, holds offset acc → ∃ acc', holds total acc' ∧
      Takes (Unread bAligned) (pos + padding bAligned pos + 8 * hs.length) xs (take count acc)
        (acc', xs.length)) :
    Finishes align take holds total bAligned pos ys offset := by
  intro acc hacc
  obtain ⟨acc', hacc', htake⟩ := hread acc hacc
  refine ⟨acc', hacc', fun passes hpasses c => ?_⟩
  obtain ⟨passes, rfl⟩ : ∃ n, passes = n + 1 := ⟨passes - 1, by omega⟩
  unfold decodeFragments
  subst hdata
  rcases hlen with ⟨hcount, rfl⟩ | ⟨hcount, rfl⟩
  · -- one octet
    have hhead : (BitVec.ofNat 8 count : Octet) &&& 0xC0 ≠ 0xC0 ∧
        (BitVec.ofNat 8 count : Octet) &&& 0xC0 ≠ 0x80 ∧
        ((BitVec.ofNat 8 count : Octet) &&& 0x7F).toNat = count := by
      have hall : ∀ n < 128, (BitVec.ofNat 8 n : Octet) &&& 0xC0 ≠ 0xC0 ∧
          (BitVec.ofNat 8 n : Octet) &&& 0xC0 ≠ 0x80 ∧
          ((BitVec.ofNat 8 n : Octet) &&& 0x7F).toNat = n := by decide
      exact hall count hcount
    rw [octetBits_cons, octetBits_nil, List.append_nil]
    refine takes_alignedOctet pos _ ?_
    simp only [List.headD_cons, hhead, if_false]
    refine (takes_contents (k := 1) htake).of_eq ?_ rfl
    simp
    omega
  · -- two octets
    have hhigh : count >>> 8 < 64 := by
      rw [Nat.shiftRight_eq_div_pow]
      rw [l16k] at hcount
      omega
    have hhead : ∀ q < 64, (BitVec.ofNat 8 q ||| 0x80 : Octet) &&& 0xC0 ≠ 0xC0 ∧
        (BitVec.ofNat 8 q ||| 0x80 : Octet) &&& 0xC0 = 0x80 ∧
        ((BitVec.ofNat 8 q ||| 0x80 : Octet) &&& 0x3F).toNat = q := by decide
    obtain ⟨-, hhead₂, hhead₃⟩ := hhead _ hhigh
    have hjoin : (count >>> 8) <<< 8 ||| (BitVec.ofNat 8 count).toNat = count := by
      rw [BitVec.toNat_ofNat, ← Nat.shiftLeft_add_eq_or_of_lt (Nat.mod_lt _ (by decide)),
        Nat.shiftRight_eq_div_pow, Nat.shiftLeft_eq]
      omega
    rw [octetBits_cons, List.append_assoc, octetBits_cons, octetBits_nil, List.append_nil]
    refine takes_alignedOctet pos _ ?_
    simp only [List.headD_cons, hhead₂, hhead₃, if_true]
    rw [if_neg (by decide)]
    refine (takes_octet _ _).bind ?_
    simp only [List.headD_cons, hjoin]
    refine (takes_contents (k := 2) htake).of_eq ?_ rfl
    simp
    omega

include hcodec in
theorem completes_lastFragment (pre : List Bool) {offset tempLen : ℕ} (hoffset : l16k ∣ offset)
    (hlen : tempLen < l16k) (htotal : offset + tempLen = total) :
    Completes align take holds total bAligned pre (encodeLastFragment put offset tempLen) offset := by
  unfold encodeLastFragment
  by_cases hshort : tempLen < 128
  · obtain ⟨xs, hput, hread⟩ := hcodec.stretch
      (pre ++ List.replicate (padding bAligned pre.length) false ++
        octetBits [BitVec.ofNat 8 tempLen]) offset tempLen hoffset htotal.le
    rw [if_pos hshort]
    refine ⟨_, puts_encodeFragment (puts_pEncDefLenTo127 · tempLen) hput,
      finishes_of_last rfl (Or.inl ⟨hshort, rfl⟩) ?_⟩
    simpa [htotal, Nat.add_assoc] using hread
  · obtain ⟨xs, hput, hread⟩ := hcodec.stretch
      (pre ++ List.replicate (padding bAligned pre.length) false ++
        octetBits [BitVec.ofNat 8 (tempLen >>> 8) ||| 0x80, BitVec.ofNat 8 tempLen]) offset tempLen
      hoffset htotal.le
    rw [if_neg hshort, if_pos hlen]
    refine ⟨_, puts_encodeFragment (puts_pEncLen1to16k · tempLen) hput,
      finishes_of_last rfl (Or.inr ⟨hlen, rfl⟩) ?_⟩
    simpa [htotal, Nat.add_assoc] using hread

include hcodec in
theorem completes_terminator (pre : List Bool) (htotal : l16k ∣ total) :
    Completes align take holds total bAligned pre encodeTerminator total := by
  have hlen : 0 < 128 ∧ ([0] : List Octet) = [BitVec.ofNat 8 0] := ⟨by decide, rfl⟩
  refine ⟨_, (puts_octetAlignWrite pre).add (puts_octet _ 0),
    finishes_of_last ?_ (Or.inl hlen) (hcodec.nothing htotal _)⟩
  simp


include halign hcodec in
theorem Advances.encode16kFragments (pre : List Bool) {offset count : ℕ} (hoffset : l16k ∣ offset)
    (hcount : count ≤ 4) (htotal : offset + l16k * count ≤ total) :
    Advances align take holds total bAligned pre (encode16kFragments put offset count) offset
      (offset + l16k * count) := by
  unfold Esnacc.encode16kFragments
  by_cases hnone : count = 0
  · rw [if_neg (not_not.mpr hnone), hnone, Nat.mul_zero, Nat.add_zero]
    exact Advances.pure pre _
  · rw [Nat.mul_comm l16k count] at htotal ⊢
    rw [if_pos hnone]
    exact Advances.fragment halign hcodec pre hoffset ⟨Nat.pos_of_ne_zero hnone, hcount⟩ htotal

include hcodec in
theorem completes_rest (pre : List Bool) {offset tempLen : ℕ} (hoffset : l16k ∣ offset)
    (hlen : tempLen < l16k) (htotal : offset + tempLen = total) :
    Completes align take holds total bAligned pre (encodeRest put offset tempLen) offset := by
  unfold encodeRest
  by_cases hend : tempLen = 0
  · obtain rfl : offset = total := by omega
    rw [if_pos hend]
    exact completes_terminator hcodec pre hoffset
  · rw [if_neg hend]
    exact completes_lastFragment hcodec pre hoffset hlen htotal

include halign hcodec in
theorem completes_encodeGeneral (pre : List Bool) :
    Completes align take holds total bAligned pre (encodeGeneral put total) 0 := by
  unfold encodeGeneral
  by_cases hshort : total < l16k
  · rw [if_pos hshort]
    exact completes_lastFragment hcodec pre (dvd_zero l16k) hshort (Nat.zero_add total)
  rw [if_neg hshort]
  -- `total` is `x` fragments of 64k, then `count` of 16k, then less than 16k
  obtain ⟨x, hx⟩ : ∃ x, x = total / (4 * l16k) := ⟨_, rfl⟩
  obtain ⟨tempLen, htemp⟩ : ∃ n, n = total - x * (4 * l16k) := ⟨_, rfl⟩
  obtain ⟨count, hcount⟩ : ∃ count, count = tempLen / l16k := ⟨_, rfl⟩
  simp only [← hx, ← htemp, ← hcount]
  have h64 := Nat.div_add_mod' total (4 * l16k)
  have h16 := Nat.div_add_mod tempLen l16k
  have hlt64 : total % (4 * l16k) < 4 * l16k := Nat.mod_lt _ (by decide)
  have hlt16 : tempLen % l16k < l16k := Nat.mod_lt _ (by decide)
  rw [← hx] at h64
  rw [← hcount] at h16
  have hcount4 : count < 4 := hcount ▸ Nat.div_lt_of_lt_mul (by omega)
  have hx16 : l16k ∣ x * (4 * l16k) := ⟨x * 4, by ring⟩
  have hloop := Advances.fragments halign hcodec pre x (dvd_zero l16k) (by omega)
  rw [Nat.zero_add] at hloop
  have hall := (hloop.bind fun pre => Advances.encode16kFragments halign hcodec pre hx16 hcount4.le
    (by omega)).complete fun pre => completes_rest hcodec pre
      (hx16.add (Dvd.intro count rfl)) (show tempLen - l16k * count < l16k by omega) (by omega)
  simpa only [bind_assoc, pure_bind] using hall

include halign hcodec in
/-- Contents of any number of units are read back, and nothing else is. -/
theorem general_roundTrip (pre : List Bool) {cleared : A} (hcleared : holds 0 cleared) :
    ∃ xs a, Puts bAligned pre (encodeGeneral put total) xs ∧ holds total a ∧
      Gets bAligned pre.length xs (decodeGeneral align take cleared) a := by
  obtain ⟨xs, hputs, hfinish⟩ := completes_encodeGeneral halign hcodec pre
  obtain ⟨a, ha, hgets⟩ := hfinish cleared hcleared
  refine ⟨xs, a, hputs, ha, fun c => Takes.bind_read fun b rest hb => hgets _ ?_ c⟩
  rw [hb.bitsLeft, List.length_append]
  omega

end Loops

end Esnacc
