import Esnacc.Per.IntegerRoundTrip

/-!
`AsnSetOf<T>` of the packed encoding rules: the number of elements, then the elements,
each encoded into a bit buffer of its own; the buffers are sorted and appended.
-/

namespace Esnacc

open BitString StreamCodec

namespace AsnBufBits

/-! ### Appending one buffer to another -/

/-- The loop over whole octets. It ends with the octet that was read last and with what
is left of the buffer, or with an exception. -/
def appendOctets : ℕ → Octet → AsnBufBits → AsnBufBits →
    AsnBufBits × Except Fault (Octet × AsnBufBits)
  | 0, ch, b, bufBitsOut => (bufBitsOut, .ok (ch, b))
  | n + 1, _, b, bufBitsOut =>
      match b.readByte with
      | .error e => (bufBitsOut, .error e)
      | .ok (ch, b) => appendOctets n ch b (bufBitsOut.putBits [ch] 8).2

/-- The whole octets, then the `iLeft` bits of the last one. What becomes of the target:
exceptions are swallowed. -/
def appendBits (n : ℕ) (iLeft : ℤ) (ch : Octet) (b bufBitsOut : AsnBufBits) : AsnBufBits :=
  match appendOctets n ch b bufBitsOut with
  | (bufBitsOut, .error _) => bufBitsOut
  | (bufBitsOut, .ok (ch, b)) =>
      if iLeft = 0 then bufBitsOut
      else
        match b.getBits (toUlong iLeft) with
        | .error _ => bufBitsOut
        -- the bits that were got are not the bits that are put
        | .ok _ => (bufBitsOut.putBits [ch] (toUlong iLeft)).2

/-- `AppendTo`. `ch` is what the local octet holds before anything is read into it. -/
def appendTo (ch : Octet) (b bufBitsOut : AsnBufBits) : AsnBufBits :=
  let iThisCount := toInt32 b.ulBitsLeft
  appendBits (iThisCount.tdiv 8).toNat (iThisCount - 8 * iThisCount.tdiv 8) ch b bufBitsOut

/-- The bits that arrive at the target of `AppendTo`. -/
def appended (ch : Octet) (bits : List Bool) : List Bool :=
  bits.take (8 * (bits.length / 8)) ++
    (bitsOf ((pack (bits.take (8 * (bits.length / 8)))).getLastD ch)).take (bits.length % 8)

theorem appendOctets_eq {bAligned : Bool} (os : List Octet) (ch : Octet) {b : AsnBufBits}
    (hb : b.pbuf = os) {pre : List Bool} {out : AsnBufBits} (hout : Written bAligned pre out) :
    ∃ out', appendOctets os.length ch b out = (out', .ok (os.getLastD ch, { b with pbuf := [] })) ∧
      Written bAligned (pre ++ octetBits os) out' := by
  induction os generalizing ch b pre out with
  | nil =>
      refine ⟨out, ?_, by simpa using hout⟩
      cases b
      subst hb
      rfl
  | cons o os ih =>
      have hread : b.readByte = .ok (o, { b with pbuf := os }) := by
        rw [readByte, hb]
      have hput := (hout.putBits [o] (show 8 ≤ 8 * [o].length by simp)).2
      rw [List.take_of_length_le (by simp)] at hput
      obtain ⟨out', hrun, hwritten⟩ := ih o (show ({ b with pbuf := os } : AsnBufBits).pbuf = os from
        rfl) hput
      refine ⟨out', ?_, by simpa [List.append_assoc] using hwritten⟩
      rw [List.length_cons, appendOctets, hread]
      show appendOctets os.length o _ _ = _
      rw [hrun, List.getLastD_cons]

/-- A last, partial octet is there to be got, and is not looked at. -/
theorem getBits_lastOctet {b : AsnBufBits} {n : ℕ} (hpos : 0 < n) (hlt : n < 8)
    (hleft : n ≤ b.ulBitsLeft) (hread : b.iReadBitPos = 8) (hpbuf : b.pbuf = [])
    (hwrite : b.iWriteBitPos < 8) : ∃ r, b.getBits n = .ok r := by
  obtain ⟨⟨ch, b'⟩, hbyte⟩ : ∃ r, b.readByte = .ok r := by
    rw [readByte, hpbuf]
    exact ⟨_, if_pos hwrite⟩
  simp only [getBits, getExtraBits, if_neg (Nat.not_lt.mpr hleft), Nat.div_eq_of_lt hlt,
    Nat.mod_eq_of_lt hlt, getOctets, if_pos hpos, hread, Nat.sub_self,
    if_neg (Nat.not_le.mpr hpos), hbyte, bind, Except.bind, pure, Except.pure]
  exact ⟨_, rfl⟩

theorem appendTo_eq {b : AsnBufBits} {n : ℕ} (hcount : toInt32 b.ulBitsLeft = n) (ch : Octet)
    (out : AsnBufBits) : appendTo ch b out = appendBits (n / 8) (n % 8 : ℕ) ch b out := by
  have hdiv : (n : ℤ).tdiv 8 = (n / 8 : ℕ) := by
    rw [Int.tdiv_eq_ediv_of_nonneg (Int.natCast_nonneg n)]
    rfl
  have hleft : (n : ℤ) - 8 * (n / 8 : ℕ) = (n % 8 : ℕ) := by omega
  simp only [appendTo, hcount, hdiv, hleft, Int.toNat_natCast]

theorem Written.appendTo {bAligned : Bool} {bits pre : List Bool} {b out : AsnBufBits}
    (h : Written bAligned bits b) (hsmall : bits.length < 2 ^ 31) (ch : Octet)
    (hout : Written bAligned pre out) :
    Written bAligned (pre ++ appended ch bits) (appendTo ch b out) := by
  obtain ⟨part, hwc, hbits⟩ := h.content
  have hpart := congrArg List.length hwc
  simp only [length_bitsOf, List.length_append, List.length_replicate] at hpart
  have hwhole : b.pbuf.length = bits.length / 8 ∧ part.length = bits.length % 8 := by
    have hlen := congrArg List.length hbits
    have hpos := h.writePos_pos
    simp only [List.length_append, length_octetBits] at hlen
    omega
  have htake : bits.take (8 * (bits.length / 8)) = octetBits b.pbuf := by
    rw [← hwhole.1, hbits, List.take_left' (by simp)]
  have hcount : toInt32 b.ulBitsLeft = bits.length := by
    rw [h.bitsLeft]
    exact toInt32_eq (by omega) (by omega)
  obtain ⟨out', hrun, hwritten⟩ := appendOctets_eq b.pbuf ch rfl hout
  have hlong : toUlong (bits.length % 8 : ℕ) = bits.length % 8 := toUlong_natCast (by omega)
  rw [appendTo_eq hcount, ← hwhole.1, appended, htake, pack_octetBits, ← List.append_assoc]
  simp only [appendBits, hrun, hlong, Nat.cast_eq_zero]
  by_cases hnone : bits.length % 8 = 0
  · simpa [hnone] using hwritten
  · have hput := (hwritten.putBits [b.pbuf.getLastD ch]
      (show bits.length % 8 ≤ 8 * [b.pbuf.getLastD ch].length by
        simp only [List.length_singleton]; omega)).2
    obtain ⟨r, hr⟩ := @getBits_lastOctet { b with pbuf := [] } _ (Nat.pos_of_ne_zero hnone)
      (Nat.mod_lt _ (by decide)) (by simp only [h.bitsLeft]; exact Nat.mod_le _ _) h.readPos rfl
      (by simp only; omega)
    simp only [if_neg hnone, hr]
    simpa using hput

/-- `AppendTo` appends the bits of the buffer exactly when those of the last, partial octet
are also the first bits of the octet before. -/
theorem appendTo_exact_iff {bAligned : Bool} {bits pre : List Bool} {b out : AsnBufBits}
    (h : Written bAligned bits b) (hsmall : bits.length < 2 ^ 31) (ch : Octet)
    (hout : Written bAligned pre out) :
    Written bAligned (pre ++ bits) (appendTo ch b out) ↔
      bits.drop (8 * (bits.length / 8)) =
        (bitsOf ((pack (bits.take (8 * (bits.length / 8)))).getLastD ch)).take
          (bits.length % 8) := by
  have hwritten := h.appendTo hsmall ch hout
  constructor
  · intro hexact
    have hsame := (bitBuffer_faithful bAligned).written_unique hexact hwritten
    rw [List.append_cancel_left_eq, appended] at hsame
    nth_rewrite 1 [← List.take_append_drop (8 * (bits.length / 8)) bits] at hsame
    exact List.append_cancel_left hsame
  · intro hlast
    rwa [appended, ← hlast, List.take_append_drop] at hwritten

theorem appendTo_exact_true : ∃ b : AsnBufBits, Written true [true] b ∧
    Written true [true] (appendTo 0x80 b (new true)) := by
  have h := ((written_new true).putBits [0x80] (show 1 ≤ 8 * 1 by decide)).2
  exact ⟨_, h, (@appendTo_exact_iff true [true] [] _ _ h (by decide) 0x80
    (written_new true)).mpr (by decide)⟩

/-! ### Comparing two buffers -/

/-- The loop of `operator<`, on copies of the two buffers. -/
def lessThan : ℕ → Bool → AsnBufBits → AsnBufBits → Bool
  | 0, _, _, _ => true
  | fuel + 1, firstTime, tmpBuf1, tmpBuf2 =>
      match tmpBuf1.readByte, tmpBuf2.readByte with
      | .error _, .error _ => !firstTime
      | .ok _, .error _ => false
      | .error _, .ok _ => true
      | .ok (ch1, tmpBuf1), .ok (ch2, tmpBuf2) =>
          if ch2.toNat < ch1.toNat then false
          else if ch1.toNat < ch2.toNat then true
          else lessThan fuel false tmpBuf1 tmpBuf2

/-- `operator<`. Behind the octets of the stream `ReadByte` delivers two more at most, and
the loop ends where it fails. -/
def lt (b rhs : AsnBufBits) : Bool := lessThan (b.pbuf.length + 3) true b rhs

/-- Two buffers that end together after the first octet are in order both ways. -/
theorem lessThan_self (fuel : ℕ) (b : AsnBufBits) : lessThan fuel false b b = true := by
  induction fuel generalizing b with
  | zero => rfl
  | succ fuel ih =>
      rw [lessThan]
      cases b.readByte with
      | error e => rfl
      | ok r => simpa using ih r.2

theorem lt_self {b : AsnBufBits} {r : Octet × AsnBufBits} (h : b.readByte = .ok r) :
    b.lt b = true := by
  rw [lt, lessThan, h]
  simpa using lessThan_self _ r.2

theorem Written.exists_readByte {bAligned : Bool} {bits : List Bool} {b : AsnBufBits}
    (h : Written bAligned bits b) (hbits : bits ≠ []) : ∃ r, b.readByte = .ok r := by
  have hlen := h.unread.length_le
  have hpos := List.length_pos_iff.mpr hbits
  obtain ⟨o, os, hos⟩ := @exists_unread b (by rw [h.readPos]; omega)
  obtain ⟨pbuf, pos, char, hread, -⟩ := readByte_eq hos
  exact ⟨_, hread⟩

/-- There is one buffer that no bits have been written to. -/
theorem Written.eq_new {bAligned : Bool} {b : AsnBufBits} (h : Written bAligned [] b) :
    b = new bAligned := by
  obtain ⟨part, hwc, hbits⟩ := h.content
  obtain ⟨hpbuf, rfl⟩ := List.append_eq_nil_iff.mp hbits.symm
  have hpbuf' : b.pbuf = [] := octetBits_injective hpbuf
  have hpos : b.iWriteBitPos = 8 := by simpa using (congrArg List.length hwc).symm
  have hchar : b.ucWriteCharBuf = 0 := bitsOf_injective (by rw [hwc, hpos]; rfl)
  calc b = ⟨b.pbuf, b.bAlign, b.ucWriteCharBuf, b.iWriteBitPos, b.ucReadCharBuf, b.iReadBitPos,
          b.ulNumBits, b.ulBitsLeft⟩ := rfl
    _ = new bAligned := by
        rw [hpbuf', hpos, hchar, h.bAlign, h.numBits, h.bitsLeft, h.readPos, h.readChar]
        rfl

/-- The irreflexivity, transitivity and transitivity of incomparability that sorting asks
for, on the buffers that are sorted. -/
structure OrdersStrictly (bufList : List AsnBufBits) : Prop where
  irrefl : ∀ x ∈ bufList, x.lt x = false
  trans : ∀ x ∈ bufList, ∀ y ∈ bufList, ∀ z ∈ bufList, x.lt y = true → y.lt z = true →
    x.lt z = true
  incomparable_trans : ∀ x ∈ bufList, ∀ y ∈ bufList, ∀ z ∈ bufList,
    (x.lt y = false ∧ y.lt x = false) → (y.lt z = false ∧ z.lt y = false) →
      x.lt z = false ∧ z.lt x = false

end AsnBufBits

/-! ### SET OF -/

/-- The members of an element type. `pDec` works on a new element. -/
structure PerCodec (T : Type) where
  pEnc : T → PerM ℕ
  pDec : ℕ → PerM (T × ℕ)

namespace PerCodec

open AsnBufBits

variable {T : Type} (codec : PerCodec T)

/-- An element type whose own encoding is in order: what it writes into a new buffer is
decoded to the same element, wherever an aligned encoding may start. -/
structure Lawful (bAligned : Bool) : Prop where
  emits : ∀ x, ∃ n bits, Emits (Written bAligned) [] (codec.pEnc x) n bits
  takes : ∀ x n bits, Emits (Written bAligned) [] (codec.pEnc x) n bits →
    ∀ pos, padding bAligned pos = 0 → ∀ count,
      Takes (Unread bAligned) pos bits (codec.pDec count) (x, count + bits.length)

theorem Lawful.of_bits {codec : PerCodec T} {bAligned : Bool} (bits : T → List Bool)
    (henc : ∀ x, ∃ n, Emits (Written bAligned) [] (codec.pEnc x) n (bits x))
    (hdec : ∀ x pos count,
      Takes (Unread bAligned) pos (bits x) (codec.pDec count) (x, count + (bits x).length)) :
    codec.Lawful bAligned where
  emits := fun x => (henc x).imp fun n hn => ⟨bits x, hn⟩
  takes := by
    intro x n written hwritten pos _ count
    obtain ⟨m, hm⟩ := henc x
    obtain ⟨-, rfl⟩ := Emits.unique (bitBuffer_faithful bAligned) hm hwritten
    exact hdec x pos count

/-- `AsnNull`. -/
def asnNull : PerCodec Unit where
  pEnc _ := return 0
  pDec bitsDecoded := return ((), bitsDecoded)

theorem asnNull_lawful (bAligned : Bool) : asnNull.Lawful bAligned :=
  .of_bits (fun _ => []) (fun _ => ⟨0, Emits.pure [] 0⟩)
    fun _ pos count => Takes.pure pos ((), count)

/-- `AsnBool`. -/
def asnBool : PerCodec Bool where
  pEnc value := do
    let _ ← PerM.putBits [if value then 0x80 else 0x00] 1
    return 1
  pDec bitsDecoded := do
    let cBool ← PerM.getBits 1
    return (cBool.headD 0 &&& 0x80 == 0x80, bitsDecoded + 1)

theorem asnBool_lawful (bAligned : Bool) : asnBool.Lawful bAligned := by
  refine .of_bits (fun value => [value]) (fun value => ⟨1, ?_⟩) fun value pos count => ?_
  · have hput := @emits_putBits bAligned [] [if value then 0x80 else 0x00] 1 (by simp)
    refine (hput.bind (Emits.pure _ 1)).of_eq rfl ?_
    cases value <;> decide
  · have hget := (@takes_getBits bAligned pos [value]).bind_pure fun cBool =>
      (cBool.headD 0 &&& 0x80 == 0x80, count + 1)
    refine hget.of_eq ?_ rfl
    cases value <;> rfl

/-- The buffers of the elements, each with the length that was returned. -/
def encodeAll (bAligned : Bool) (xs : List T) : Except Fault (List (ℕ × AsnBufBits)) :=
  xs.mapM fun x => (codec.pEnc x).run (new bAligned)

end PerCodec

namespace AsnSetOf

open AsnBufBits

variable {T : Type}

/-- `std::list<AsnBufBits>::sort()`, a stable sort. -/
def sortBits (bufList : List AsnBufBits) : List AsnBufBits :=
  bufList.mergeSort fun lhs rhs => !AsnBufBits.lt rhs lhs

def pEnc (codec : PerCodec T) (ch : Octet) (xs : List T) : PerM ℕ := do
  let intSetOfLength ← StateT.lift (AsnInt.set (toInt32 xs.length))
  let _ ← intSetOfLength.pEnc []
  let bAlign ← PerM.isAligned
  let bufList ← StateT.lift (codec.encodeAll bAlign xs)
  fun b => .ok ((bufList.map Prod.fst).sum % 2 ^ 64,
    (sortBits (bufList.map Prod.snd)).foldl (fun b iBuf => iBuf.appendTo ch b) b)

/-- The loop of `PDec`. -/
def pDecElements (codec : PerCodec T) : ℕ → ℕ → PerM (List T × ℕ)
  | 0, bitsDecoded => return ([], bitsDecoded)
  | n + 1, bitsDecoded => do
      let (x, bitsDecoded) ← codec.pDec bitsDecoded
      let (xs, bitsDecoded) ← pDecElements codec n bitsDecoded
      return (x :: xs, bitsDecoded)

def pDec (codec : PerCodec T) (bitsDecoded : ℕ) : PerM (List T × ℕ) := do
  let (intSetOfLength, bitsDecoded) ← AsnInt.cleared.pDec [] bitsDecoded
  let n ← StateT.lift intSetOfLength.getInt
  pDecElements codec n.toNat bitsDecoded

/-- What the encoding of a SET OF is meant for, on one value: the buffers of the elements
are sorted by a strict weak order, so that arrangements have the same bits; each is
appended as it is; and what is decoded is an arrangement of the value. -/
structure CanonicalInvertible (codec : PerCodec T) (bAligned : Bool) (xs : List T) : Prop where
  ordered : ∀ bufList, codec.encodeAll bAligned xs = .ok bufList →
    OrdersStrictly (bufList.map Prod.snd)
  canonical : ∀ ys, ys.Perm xs → ∀ ch pre b, Written bAligned pre b →
    ((pEnc codec ch ys).run b).map Prod.snd = ((pEnc codec ch xs).run b).map Prod.snd
  appended : ∀ bufList, codec.encodeAll bAligned xs = .ok bufList → ∀ iBuf ∈ bufList.map Prod.snd,
    ∀ bits, Written bAligned bits iBuf → ∀ ch pre b, Written bAligned pre b →
      Written bAligned (pre ++ bits) (iBuf.appendTo ch b)
  decoded : ∀ ch pre, Recovers (Written bAligned) (Unread bAligned) pre (pEnc codec ch xs)
    (pDec codec) (·.Perm xs)

/-- The element is encoded in no bits. -/
def Silent (codec : PerCodec T) (bAligned : Bool) (x : T) : Prop :=
  ∃ n, (codec.pEnc x).run (new bAligned) = .ok (n, new bAligned)

variable {codec : PerCodec T} {bAligned : Bool}

theorem encodeAll_eq (hlaw : codec.Lawful bAligned) (xs : List T) :
    ∃ bufList, codec.encodeAll bAligned xs = .ok bufList ∧ bufList.length = xs.length ∧
      ∀ x ∈ xs, ∃ n b bits, (codec.pEnc x).run (new bAligned) = .ok (n, b) ∧
        (n, b) ∈ bufList ∧ Written bAligned bits b := by
  induction xs with
  | nil => exact ⟨[], rfl, rfl, fun x hx => absurd hx List.not_mem_nil⟩
  | cons x xs ih =>
      obtain ⟨bufList, hall, hlen, hmem⟩ := ih
      obtain ⟨n, bits, hemits⟩ := hlaw.emits x
      obtain ⟨b, hrun, hwritten⟩ := hemits _ (written_new bAligned)
      refine ⟨(n, b) :: bufList, ?_, by rw [List.length_cons, hlen, List.length_cons], ?_⟩
      · rw [PerCodec.encodeAll] at hall ⊢
        rw [List.mapM_cons, hrun, hall]
        rfl
      · intro y hy
        rcases List.mem_cons.mp hy with rfl | hy
        · exact ⟨n, b, bits, hrun, List.mem_cons_self, hwritten⟩
        · obtain ⟨n', b', bits', hrun', hmem', hwritten'⟩ := hmem y hy
          exact ⟨n', b', bits', hrun', List.mem_cons_of_mem _ hmem', hwritten'⟩

/-- A buffer that holds bits is not less than itself for a strict order only. -/
theorem silent_of_ordered (hlaw : codec.Lawful bAligned) {xs : List T}
    (hordered : ∀ bufList, codec.encodeAll bAligned xs = .ok bufList →
      OrdersStrictly (bufList.map Prod.snd)) : ∀ x ∈ xs, Silent codec bAligned x := by
  intro x hx
  obtain ⟨bufList, hall, -, hmem⟩ := encodeAll_eq hlaw xs
  obtain ⟨n, b, bits, hrun, hb, hwritten⟩ := hmem x hx
  have hirrefl := (hordered bufList hall).irrefl b (List.mem_map_of_mem (f := Prod.snd) hb)
  by_cases hbits : bits = []
  · subst hbits
    exact ⟨n, hwritten.eq_new ▸ hrun⟩
  · obtain ⟨r, hr⟩ := hwritten.exists_readByte hbits
    rw [lt_self hr] at hirrefl
    cases hirrefl

theorem encodeAll_silent {xs : List T} (hsilent : ∀ x ∈ xs, Silent codec bAligned x) :
    ∃ bufList, codec.encodeAll bAligned xs = .ok bufList ∧
      bufList.map Prod.snd = List.replicate xs.length (new bAligned) := by
  induction xs with
  | nil => exact ⟨[], rfl, rfl⟩
  | cons x xs ih =>
      obtain ⟨n, hrun⟩ := hsilent x List.mem_cons_self
      obtain ⟨bufList, hall, hnew⟩ := ih fun y hy => hsilent y (List.mem_cons_of_mem x hy)
      refine ⟨(n, new bAligned) :: bufList, ?_, ?_⟩
      · rw [PerCodec.encodeAll] at hall ⊢
        rw [List.mapM_cons, hrun, hall]
        rfl
      · rw [List.map_cons, hnew, List.length_cons, List.replicate_succ]

theorem appendTo_new (ch : Octet) (b : AsnBufBits) : (new bAligned).appendTo ch b = b := by
  have hcount : toInt32 (new bAligned).ulBitsLeft = (0 : ℕ) := by
    show toInt32 (0 : ℕ) = (0 : ℕ)
    decide
  rw [appendTo_eq hcount]
  simp only [appendBits, Nat.zero_div, appendOctets, Nat.zero_mod, Nat.cast_zero, if_true]

theorem foldl_appendTo_new (ch : Octet) (n : ℕ) (b : AsnBufBits) :
    (sortBits (List.replicate n (new bAligned))).foldl (fun b iBuf => iBuf.appendTo ch b) b =
      b := by
  have hsort : sortBits (List.replicate n (new bAligned)) = List.replicate n (new bAligned) := by
    rw [sortBits, List.eq_replicate_iff]
    exact ⟨by rw [List.length_mergeSort, List.length_replicate], fun iBuf hiBuf =>
      List.eq_of_mem_replicate (List.mem_mergeSort.mp hiBuf)⟩
  have hfold : ∀ n : ℕ,
      (List.replicate n (new bAligned)).foldl (fun b iBuf => iBuf.appendTo ch b) b = b := by
    intro n
    induction n with
    | zero => rfl
    | succ n ih => rw [List.replicate_succ, List.foldl_cons, appendTo_new, ih]
  rw [hsort, hfold]

/-- The number of elements is an `int`, written as an integer without constraints. -/
theorem count_recovers (bAligned : Bool) (pre : List Bool) (z : ℤ) :
    ∃ x xs a, AsnInt.set (toInt32 z) = .ok x ∧
      Emits (Written bAligned) pre (x.pEnc []) xs.length xs ∧
      padding bAligned (pre.length + xs.length) = 0 ∧ a.getInt = .ok (toInt32 z) ∧
      ∀ count, Takes (Unread bAligned) pre.length xs (AsnInt.cleared.pDec [] count)
        (a, count + xs.length) := by
  obtain ⟨hset, hvalue, hlen⟩ := AsnInt.set_eq (le_toInt32 z) (toInt32_lt z)
  generalize hbytes : AsnInt.derOctets (AsnInt.bigEndian (toInt32 z)) (0 ≤ toInt32 z) = os
    at hset hvalue hlen
  obtain ⟨bits, hbits⟩ : ∃ bits, bits = List.replicate (padding bAligned pre.length) false ++
      (octetBits [BitVec.ofNat 8 os.length] ++ octetBits os) := ⟨_, rfl⟩
  have hputs := @AsnInt.puts_encodeGeneral bAligned pre ⟨toInt32 z, os⟩ (by simp only; omega)
  rw [← hbits] at hputs
  have hemits :
      Emits (Written bAligned) pre ((⟨toInt32 z, os⟩ : AsnInt).pEnc []) bits.length bits := by
    unfold AsnInt.pEnc AsnInt.checkConstraints
    rw [if_neg (by simp), if_pos rfl, lift_ok, pure_bind]
    exact hputs
  obtain ⟨a, ha, htakes⟩ := (Recovers.iff_takes (bitBuffer_faithful bAligned) hemits).mp
    (AsnInt.unconstrained_recovers pre ⟨toInt32 z, os⟩ AsnInt.cleared)
  refine ⟨⟨toInt32 z, os⟩, bits, a, hset, hemits, ?_, ?_, htakes⟩
  · have hcount : pre.length + bits.length =
        pre.length + padding bAligned pre.length + 8 * (1 + os.length) := by
      simp only [hbits, List.length_append, List.length_replicate, length_octetBits, List.length_singleton]
      omega
    rw [hcount, padding_add_eight_mul, padding_add_padding]
  · rw [AsnInt.getInt_eq (by rw [ha]; exact hlen), AsnInt.value, ha, hvalue]

theorem takes_pDecElements {pos : ℕ} {xs : List T} (h : ∀ x ∈ xs, ∀ count,
    Takes (Unread bAligned) pos [] (codec.pDec count) (x, count)) (count : ℕ) :
    Takes (Unread bAligned) pos [] (pDecElements codec xs.length count) (xs, count) := by
  induction xs with
  | nil => exact Takes.pure pos ([], count)
  | cons x xs ih =>
      have hhead := h x List.mem_cons_self count
      have htail := ih fun y hy => h y (List.mem_cons_of_mem x hy)
      exact (hhead.bind (htail.bind (Takes.pure _ (x :: xs, count)))).of_eq rfl rfl

/-- Elements without bits are written as their number. -/
theorem run_silent {xs : List T} (hsilent : ∀ x ∈ xs, Silent codec bAligned x) (ch : Octet)
    {x : AsnInt} (hset : AsnInt.set (toInt32 xs.length) = .ok x) :
    ∃ m, ∀ b n b', (x.pEnc []).run b = .ok (n, b') → b'.bAlign = bAligned →
      (pEnc codec ch xs).run b = .ok (m, b') := by
  obtain ⟨bufList, hall, hnew⟩ := encodeAll_silent hsilent
  refine ⟨(bufList.map Prod.fst).sum % 2 ^ 64, fun b n b' hrun hb' => ?_⟩
  have haligned : PerM.isAligned.run b' = pure (bAligned, b') := by
    rw [← hb']
    rfl
  have hcount : (x.pEnc []).run b = pure (n, b') := hrun
  unfold pEnc
  rw [hset, lift_ok, pure_bind, StateT.run_bind, hcount, pure_bind, StateT.run_bind, haligned,
    pure_bind, hall, lift_ok, pure_bind, hnew]
  simp only [StateT.run, foldl_appendTo_new]

theorem emits_silent {xs : List T} (hsilent : ∀ x ∈ xs, Silent codec bAligned x) (ch : Octet)
    {pre bits : List Bool} {x : AsnInt} (hset : AsnInt.set (toInt32 xs.length) = .ok x)
    (hcount : Emits (Written bAligned) pre (x.pEnc []) bits.length bits) :
    ∃ n, Emits (Written bAligned) pre (pEnc codec ch xs) n bits := by
  obtain ⟨m, hm⟩ := run_silent hsilent ch hset
  refine ⟨m, fun b hb => ?_⟩
  obtain ⟨b', hrun, hb'⟩ := hcount b hb
  exact ⟨b', hm b _ b' hrun hb'.bAlign, hb'⟩

/-- What is decoded is as many of the elements as the `int` counts. -/
theorem takes_silent (hlaw : codec.Lawful bAligned) {xs : List T}
    (hsilent : ∀ x ∈ xs, Silent codec bAligned x) {pos : ℕ} {bits : List Bool} {a : AsnInt} {z : ℤ}
    (hz : z.toNat ≤ xs.length) (hint : a.getInt = .ok z)
    (hpos : padding bAligned (pos + bits.length) = 0)
    (hcount : ∀ count, Takes (Unread bAligned) pos bits (AsnInt.cleared.pDec [] count)
      (a, count + bits.length)) (count : ℕ) :
    Takes (Unread bAligned) pos bits (pDec codec count)
      (xs.take z.toNat, count + bits.length) := by
  have helement : ∀ x ∈ xs.take z.toNat, ∀ count,
      Takes (Unread bAligned) (pos + bits.length) [] (codec.pDec count) (x, count) := by
    intro x hx count
    obtain ⟨n, hrun⟩ := hsilent x (List.mem_of_mem_take hx)
    have hemits : Emits (Written bAligned) [] (codec.pEnc x) n [] := by
      intro b hb
      rw [hb.eq_new]
      exact ⟨_, hrun, written_new bAligned⟩
    exact hlaw.takes x n [] hemits _ hpos count
  have hall := takes_pDecElements helement (count + bits.length)
  rw [List.length_take, Nat.min_eq_left hz] at hall
  refine ((hcount count).bind (show Takes (Unread bAligned) _ [] _ _ from ?_)).of_eq rfl
    (List.append_nil bits)
  simp only [hint, lift_ok, pure_bind]
  exact hall

/-- Of elements without bits every one comes back, if an `int` can count them. -/
theorem decoded_silent_iff (hlaw : codec.Lawful bAligned) {xs : List T}
    (hsilent : ∀ x ∈ xs, Silent codec bAligned x) (ch : Octet) (pre : List Bool) :
    Recovers (Written bAligned) (Unread bAligned) pre (pEnc codec ch xs) (pDec codec) (·.Perm xs) ↔
      xs.length < 2 ^ 31 := by
  obtain ⟨x, bits, a, hset, hcount, hpos, hint, hdec⟩ :=
    count_recovers bAligned pre (xs.length : ℤ)
  have hfits : xs.length < 2 ^ 31 → toInt32 xs.length = xs.length := fun h =>
    toInt32_eq (by omega) (by omega)
  have hlt := toInt32_lt (xs.length : ℤ)
  have hle : (toInt32 xs.length).toNat ≤ xs.length := by
    by_cases h : xs.length < 2 ^ 31
    · rw [hfits h, Int.toNat_natCast]
    · omega
  obtain ⟨n, hemits⟩ := emits_silent hsilent ch hset hcount
  rw [Recovers.iff_good (bitBuffer_faithful bAligned) hemits
    fun count => takes_silent hlaw hsilent hle hint hpos hdec count]
  constructor
  · intro hperm
    have hlen := hperm.length_eq
    rw [List.length_take, Nat.min_eq_left hle] at hlen
    omega
  · intro h
    rw [hfits h, Int.toNat_natCast, List.take_length]

end AsnSetOf

end Esnacc
