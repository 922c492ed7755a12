import Esnacc.Lib.StreamCodec
import Esnacc.Per.BitBuffer

/-!
The bit buffer as a queue of bits. `Written` describes a buffer that has only
been written to by the bits it holds, `Unread` a buffer that is being read by
the bits that are still to come. Each operation of the buffer has one lemma
that says what it does to these descriptions.
-/

namespace Esnacc

open BitString

namespace AsnBufBits

theorem bitsOf_maskBits (o : Octet) {n : ℕ} (h₀ : 0 < n) (h : n ≤ 8) :
    bitsOf (maskBits o n) = (bitsOf o).take n ++ List.replicate (8 - n) false := by
  unfold maskBits
  split
  · rw [bitsOf_shiftLeft _ (by omega), bitsOf_ushiftRight _ (by omega),
      List.drop_append_of_le_length (by simp), List.drop_of_length_le (by simp)]
    have hn : 8 - (8 - n) = n := by omega
    simp [hn]
  · obtain rfl : n = 8 := by omega
    rw [List.take_of_length_le (by simp)]
    simp

/-- The mask keeps the bits it is asked to keep. -/
theorem take_bitsOf_maskBits (o : Octet) {n : ℕ} (h₀ : 0 < n) (h : n ≤ 8) :
    (bitsOf (maskBits o n)).take n = (bitsOf o).take n := by
  rw [bitsOf_maskBits o h₀ h, List.take_append_of_le_length]
  · simp
  · simp [h]

/-! ### Writing -/

/-- After `bits` have been written to it, the buffer holds their whole octets
in the stream and the rest in the partial octet. -/
structure Written (bAligned : Bool) (bits : List Bool) (b : AsnBufBits) : Prop where
  bAlign : b.bAlign = bAligned
  writePos_pos : 0 < b.iWriteBitPos
  writePos_le : b.iWriteBitPos ≤ 8
  content : ∃ part, bitsOf b.ucWriteCharBuf = part ++ List.replicate b.iWriteBitPos false ∧
    bits = octetBits b.pbuf ++ part
  numBits : b.ulNumBits = bits.length
  bitsLeft : b.ulBitsLeft = bits.length
  readPos : b.iReadBitPos = 8
  readChar : b.ucReadCharBuf = 0

theorem written_new (bAligned : Bool) : Written bAligned [] (new bAligned) where
  bAlign := rfl
  writePos_pos := Nat.zero_lt_succ 7
  writePos_le := le_rfl
  content := ⟨[], bitsOf_zero, rfl⟩
  numBits := rfl
  bitsLeft := rfl
  readPos := rfl
  readChar := rfl

/-- The partial octet of the writer has room for `iWriteBitPos` bits of the next
octet. -/
theorem bitsOf_merge {wc o : Octet} {part : List Bool} {pos : ℕ} (hpos : pos ≤ 8)
    (hwc : bitsOf wc = part ++ List.replicate pos false) :
    bitsOf (wc ||| o >>> (8 - pos)) = part ++ (bitsOf o).take pos := by
  have hlen : part.length = 8 - pos := by
    have := congrArg List.length hwc
    simp at this
    omega
  have hback : 8 - (8 - pos) = pos := by omega
  refine bitsOf_or_of_disjoint ?_ ?_
  · rw [hwc, List.length_take, length_bitsOf, Nat.min_eq_left hpos]
  · rw [bitsOf_ushiftRight _ (by omega), hlen, hback]

theorem Written.putOctet {bAligned : Bool} {bits : List Bool} {b : AsnBufBits}
    (h : Written bAligned bits b) (seg : Octet) :
    Written bAligned (bits ++ bitsOf seg) (b.putOctet seg) := by
  obtain ⟨part, hwc, hbits⟩ := h.content
  have hmask := take_bitsOf_maskBits seg h.writePos_pos h.writePos_le
  exact {
    bAlign := h.bAlign
    writePos_pos := h.writePos_pos
    writePos_le := h.writePos_le
    content := by
      refine ⟨(bitsOf seg).drop b.iWriteBitPos, bitsOf_shiftLeft _ h.writePos_le, ?_⟩
      simp only [AsnBufBits.putOctet, octetBits_append, octetBits_cons, octetBits_nil,
        bitsOf_merge h.writePos_le hwc, hmask, hbits, List.append_assoc, List.append_nil,
        List.take_append_drop]
    numBits := by simp [AsnBufBits.putOctet, h.numBits]
    bitsLeft := by simp [AsnBufBits.putOctet, h.bitsLeft]
    readPos := h.readPos
    readChar := h.readChar }

theorem Written.foldl_putOctet {bAligned : Bool} {bits : List Bool} {b : AsnBufBits}
    (h : Written bAligned bits b) (seg : List Octet) :
    Written bAligned (bits ++ octetBits seg) (seg.foldl AsnBufBits.putOctet b) := by
  induction seg generalizing bits b with
  | nil => simpa using h
  | cons o seg ih =>
      have := ih (h.putOctet o)
      rwa [List.append_assoc] at this

theorem Written.putExtraBits {bAligned : Bool} {bits : List Bool} {b : AsnBufBits}
    (h : Written bAligned bits b) (seg : Octet) {e : ℕ} (he₀ : 0 < e) (he : e < 8) :
    Written bAligned (bits ++ (bitsOf seg).take e) (b.putExtraBits seg e) := by
  obtain ⟨part, hwc, hbits⟩ := h.content
  have hpos := h.writePos_pos
  have hle := h.writePos_le
  have hmerge := bitsOf_merge (o := seg) hle hwc
  have hpart : part.length = 8 - b.iWriteBitPos := by
    have := congrArg List.length hwc
    simp at this
    omega
  have hnum : b.ulNumBits + e = (bits ++ (bitsOf seg).take e).length := by
    simp [h.numBits]; omega
  have hleft : b.ulBitsLeft + e = (bits ++ (bitsOf seg).take e).length := by
    simp [h.bitsLeft]; omega
  unfold AsnBufBits.putExtraBits
  rcases Nat.lt_trichotomy e b.iWriteBitPos with hlt | heq | hgt
  · -- the bits fit, and some room is left
    rw [if_neg hlt.ne, if_pos hlt]
    refine ⟨h.bAlign, by simp; omega, by simp; omega, ⟨part ++ (bitsOf seg).take e, ?_, ?_⟩,
      hnum, hleft, h.readPos, h.readChar⟩
    · have hroom : 8 - (8 - (b.iWriteBitPos - e)) = b.iWriteBitPos - e := by omega
      have hkeep : 8 - (b.iWriteBitPos - e) - part.length = e := by omega
      simp only
      rw [bitsOf_maskBits _ (by omega) (by omega), hmerge, hroom, List.take_append, hkeep,
        List.take_of_length_le (by omega), List.take_take, Nat.min_eq_left hlt.le]
    · simp [hbits]
  · -- the bits complete the octet
    rw [if_pos heq]
    refine ⟨h.bAlign, by simp, by simp, ⟨[], by simp, ?_⟩, hnum, hleft, h.readPos, h.readChar⟩
    simp [hmerge, hbits, heq]
  · -- the bits complete the octet and start another one
    rw [if_neg hgt.ne', if_neg (Nat.lt_asymm hgt)]
    have hroom : 0 < 8 - (e - b.iWriteBitPos) := by omega
    refine ⟨h.bAlign, hroom, Nat.sub_le _ _, ⟨((bitsOf seg).take e).drop b.iWriteBitPos, ?_, ?_⟩,
      hnum, hleft, h.readPos, h.readChar⟩
    · have hcut : 8 - (8 - e) = e := by omega
      simp only
      rw [bitsOf_shiftLeft _ (by omega), bitsOf_ushiftRight _ (by omega), hcut, List.drop_append,
        List.drop_of_length_le (by simp; omega), List.nil_append, List.length_replicate]
      congr 2
      omega
    · have hsplit := List.take_append_drop b.iWriteBitPos ((bitsOf seg).take e)
      rw [List.take_take, Nat.min_eq_left hgt.le] at hsplit
      simp only [octetBits_append, octetBits_cons, octetBits_nil, hmerge, hbits, List.append_nil,
        List.append_assoc]
      rw [hsplit]

/-- What is cut off by a round up to the next octet boundary. -/
def padding (bAligned : Bool) (pos : ℕ) : ℕ := if bAligned then (8 - pos % 8) % 8 else 0

theorem Written.writePos_eq {bAligned : Bool} {bits : List Bool} {b : AsnBufBits}
    (h : Written bAligned bits b) : b.iWriteBitPos % 8 = (8 - bits.length % 8) % 8 := by
  obtain ⟨part, hwc, hbits⟩ := h.content
  have hpart := congrArg List.length hwc
  have hlen := congrArg List.length hbits
  have hle := h.writePos_le
  simp only [length_bitsOf, List.length_append, List.length_replicate] at hpart
  simp only [List.length_append, length_octetBits] at hlen
  omega

theorem Written.putBits {bAligned : Bool} {bits : List Bool} {b : AsnBufBits}
    (h : Written bAligned bits b) (seg : List Octet) {numBits : ℕ}
    (hseg : numBits ≤ 8 * seg.length) :
    (b.putBits seg numBits).1 = numBits ∧
      Written bAligned (bits ++ (octetBits seg).take numBits) (b.putBits seg numBits).2 := by
  refine ⟨rfl, ?_⟩
  have hwhole := h.foldl_putOctet (seg.take (numBits / 8))
  have hdiv : 8 * (numBits / 8) + numBits % 8 = numBits := Nat.div_add_mod numBits 8
  rw [octetBits_take] at hwhole
  unfold AsnBufBits.putBits
  by_cases hextra : numBits % 8 = 0
  · have hall : 8 * (numBits / 8) = numBits := by omega
    simp only [if_pos hextra]
    rwa [hall] at hwhole
  · have hlt : numBits / 8 < seg.length := by omega
    have hnext := hwhole.putExtraBits (seg.getD (numBits / 8) 0) (Nat.pos_of_ne_zero hextra)
      (Nat.mod_lt _ (by decide))
    have hbits : (octetBits seg).take numBits = (octetBits seg).take (8 * (numBits / 8)) ++
        (bitsOf (seg.getD (numBits / 8) 0)).take (numBits % 8) := by
      have hcons : seg.drop (numBits / 8) = seg.getD (numBits / 8) 0 ::
          seg.drop (numBits / 8 + 1) := by
        rw [List.getD_eq_getElem _ _ hlt]
        exact List.drop_eq_getElem_cons hlt
      rw [← hdiv, List.take_add, ← octetBits_drop, Nat.mul_add_div (by decide), Nat.mul_add_mod,
        Nat.mod_mod, Nat.mod_div_self, Nat.add_zero, hcons, octetBits_cons,
        List.take_append_of_le_length]
      simp
      omega
    simp only [if_neg hextra]
    rw [hbits, ← List.append_assoc]
    exact hnext

theorem Written.octetAlignWrite {bAligned : Bool} {bits : List Bool} {b : AsnBufBits}
    (h : Written bAligned bits b) :
    (b.octetAlignWrite).1 = padding bAligned bits.length ∧
      Written bAligned (bits ++ List.replicate (padding bAligned bits.length) false)
        (b.octetAlignWrite).2 := by
  have hpos := h.writePos_eq
  have hpos₀ := h.writePos_pos
  unfold AsnBufBits.octetAlignWrite
  rw [h.bAlign]
  by_cases hcase : bAligned = true ∧ b.iWriteBitPos < 8
  · have hpad : b.iWriteBitPos = padding bAligned bits.length := by
      simp only [padding, hcase.1, if_true]
      omega
    obtain ⟨part, hwc, hbits⟩ := h.content
    rw [if_pos hcase, ← hpad]
    refine ⟨rfl, rfl, Nat.zero_lt_succ 7, le_rfl, ⟨[], by simp, ?_⟩, ?_, ?_,
      h.readPos, h.readChar⟩
    · simp [hwc, hbits]
    · simp [h.numBits]
    · simp [h.bitsLeft]
  · have hpad : padding bAligned bits.length = 0 := by
      cases bAligned with
      | false => rfl
      | true =>
          have hfull : ¬ b.iWriteBitPos < 8 := fun hlt => hcase ⟨rfl, hlt⟩
          have hle := h.writePos_le
          simp only [padding, if_true]
          omega
    rw [if_neg hcase, hpad]
    exact ⟨rfl, by simpa using h⟩

/-! ### Reading -/

/-- The octets the reader has not taken yet: those of the stream, then the
partial octet of the writer. -/
def unreadOctets (b : AsnBufBits) : List Octet :=
  b.pbuf ++ if b.iWriteBitPos < 8 then [b.ucWriteCharBuf] else []

/-- The bits in front of the reader, the fill of the last octet included. -/
def available (b : AsnBufBits) : List Bool :=
  (bitsOf b.ucReadCharBuf).take (8 - b.iReadBitPos) ++ octetBits b.unreadOctets

/-- The consumed bits of the read octet are shifted out. -/
structure ReadClean (b : AsnBufBits) : Prop where
  readPos_pos : 0 < b.iReadBitPos
  readPos_le : b.iReadBitPos ≤ 8
  shifted : (bitsOf b.ucReadCharBuf).drop (8 - b.iReadBitPos) =
    List.replicate b.iReadBitPos false

theorem ReadClean.bitsOf_readChar {b : AsnBufBits} (h : b.ReadClean) :
    bitsOf b.ucReadCharBuf = (bitsOf b.ucReadCharBuf).take (8 - b.iReadBitPos) ++
      List.replicate b.iReadBitPos false := by
  rw [← h.shifted, List.take_append_drop]

theorem length_available {b : AsnBufBits} :
    b.available.length = 8 - b.iReadBitPos + 8 * b.unreadOctets.length := by
  simp [available]

/-- The reader consumed the first `n` available bits of `b` and stands in `b'`. -/
structure Consumed (b : AsnBufBits) (n : ℕ) (b' : AsnBufBits) : Prop where
  clean : b'.ReadClean
  available : b'.available = b.available.drop n
  readPos : b'.iReadBitPos % 8 = (b.iReadBitPos + n) % 8
  bAlign : b'.bAlign = b.bAlign
  bitsLeft : b'.ulBitsLeft = b.ulBitsLeft

theorem Consumed.trans {b b' b'' : AsnBufBits} {m n : ℕ} (h : Consumed b m b')
    (h' : Consumed b' n b'') : Consumed b (m + n) b'' where
  clean := h'.clean
  available := by rw [h'.available, h.available, List.drop_drop]
  readPos := by rw [h'.readPos, Nat.add_mod, h.readPos, ← Nat.add_mod, Nat.add_assoc]
  bAlign := h'.bAlign.trans h.bAlign
  bitsLeft := h'.bitsLeft.trans h.bitsLeft

/-- `readByte` takes the first unread octet and leaves the reader's own fields
alone. -/
theorem readByte_eq {b : AsnBufBits} {o : Octet} {os : List Octet}
    (h : b.unreadOctets = o :: os) :
    ∃ pbuf pos char, b.readByte =
        .ok (o, { b with pbuf := pbuf, iWriteBitPos := pos, ucWriteCharBuf := char }) ∧
      (pbuf ++ if pos < 8 then [char] else []) = os := by
  unfold readByte
  unfold unreadOctets at h
  cases hp : b.pbuf with
  | cons ch rest =>
      rw [hp, List.cons_append] at h
      obtain ⟨rfl, hrest⟩ := List.cons.inj h
      exact ⟨rest, b.iWriteBitPos, b.ucWriteCharBuf, rfl, hrest⟩
  | nil =>
      rw [hp, List.nil_append] at h
      split at h
      · rename_i hlt
        obtain ⟨rfl, rfl⟩ := List.cons.inj h
        refine ⟨[], 8, 0, ?_, rfl⟩
        simp only [if_pos hlt]
      · cases h

/-- Enough available bits beyond the read octet mean there is an octet to read. -/
theorem exists_unread {b : AsnBufBits} (hlen : 8 - b.iReadBitPos < b.available.length) :
    ∃ o os, b.unreadOctets = o :: os := by
  cases hos : b.unreadOctets with
  | nil => simp [length_available, hos] at hlen
  | cons o os => exact ⟨o, os, rfl⟩

/-- An octet put together from the rest of the read octet and the next one. -/
theorem ReadClean.bitsOf_join {b : AsnBufBits} (h : b.ReadClean) (o : Octet) :
    bitsOf (b.ucReadCharBuf ||| o >>> (8 - b.iReadBitPos)) =
      (bitsOf b.ucReadCharBuf).take (8 - b.iReadBitPos) ++ (bitsOf o).take b.iReadBitPos :=
  bitsOf_merge h.readPos_le h.bitsOf_readChar

theorem available_eq {b : AsnBufBits} {o : Octet} {os : List Octet}
    (hos : b.unreadOctets = o :: os) : b.available =
      (bitsOf b.ucReadCharBuf).take (8 - b.iReadBitPos) ++ (bitsOf o ++ octetBits os) := by
  rw [available, hos, octetBits_cons]

/-- The rest of the read octet and `n` bits of the next one. -/
theorem take_available {b : AsnBufBits} {o : Octet} {os : List Octet}
    (hos : b.unreadOctets = o :: os) {n : ℕ} (hn : n ≤ 8) :
    b.available.take (8 - b.iReadBitPos + n) =
      (bitsOf b.ucReadCharBuf).take (8 - b.iReadBitPos) ++ (bitsOf o).take n := by
  have hlen : ((bitsOf b.ucReadCharBuf).take (8 - b.iReadBitPos)).length = 8 - b.iReadBitPos := by
    simp
  rw [available_eq hos, List.take_append, hlen, Nat.add_sub_cancel_left,
    List.take_append_of_le_length (by simpa using hn), List.take_of_length_le (by omega)]

/-- What is left when the read octet is replaced by the rest of the next one. -/
theorem ReadClean.consumed_of_next {b : AsnBufBits} (h : b.ReadClean) {o : Octet}
    {os : List Octet} (hos : b.unreadOctets = o :: os) {n : ℕ} (hn₀ : 0 < n) (hn : n ≤ 8)
    (b' : AsnBufBits)
    (hchar : n < 8 → b'.ucReadCharBuf = o <<< n) (hfull : n = 8 → b'.ReadClean)
    (hpos : b'.iReadBitPos = n) (hos' : b'.unreadOctets = os)
    (hal : b'.bAlign = b.bAlign) (hleft : b'.ulBitsLeft = b.ulBitsLeft) :
    Consumed b (8 - b.iReadBitPos + n) b' := by
  have hlen : ((bitsOf b.ucReadCharBuf).take (8 - b.iReadBitPos)).length = 8 - b.iReadBitPos := by
    simp
  have hle := h.readPos_le
  have hshift : n < 8 → bitsOf b'.ucReadCharBuf = (bitsOf o).drop n ++ List.replicate n false := by
    intro hlt
    rw [hchar hlt, bitsOf_shiftLeft _ hn]
  have hdrop : b.available.drop (8 - b.iReadBitPos + n) = (bitsOf o).drop n ++ octetBits os := by
    rw [available_eq hos, List.drop_append, hlen, Nat.add_sub_cancel_left,
      List.drop_append_of_le_length (by simpa using hn), List.drop_of_length_le (by omega),
      List.nil_append]
  refine ⟨?_, ?_, by rw [hpos]; omega, hal, hleft⟩
  · rcases Nat.lt_or_eq_of_le hn with hlt | heq
    · refine ⟨by omega, by omega, ?_⟩
      rw [hpos, hshift hlt, List.drop_append, List.drop_of_length_le (by simp)]
      simp
    · exact hfull heq
  · rw [hdrop, available, hpos, hos']
    rcases Nat.lt_or_eq_of_le hn with hlt | heq
    · rw [hshift hlt, List.take_append_of_le_length (by simp), List.take_of_length_le (by simp)]
    · simp [heq]

theorem ReadClean.getOctet {b : AsnBufBits} (h : b.ReadClean) (hlen : 8 ≤ b.available.length) :
    ∃ b', b.getOctet = .ok (ofBits (b.available.take 8), b') ∧ Consumed b 8 b' := by
  have hpos := h.readPos_pos
  have hle := h.readPos_le
  obtain ⟨o, os, hos⟩ := exists_unread (b := b) (by omega)
  obtain ⟨pbuf, pos, char, hread, hos'⟩ := readByte_eq hos
  have htake := take_available hos hle
  have hconsumed := h.consumed_of_next hos hpos hle
  rw [Nat.sub_add_cancel hle] at hconsumed htake
  unfold AsnBufBits.getOctet
  rw [hread, htake]
  by_cases hfull : b.iReadBitPos = 8
  · refine ⟨{ b with pbuf := pbuf, iWriteBitPos := pos, ucWriteCharBuf := char }, ?_,
      hconsumed _ (fun hlt => absurd hfull hlt.ne) (fun _ => ⟨hpos, hle, h.shifted⟩) rfl hos' rfl
        rfl⟩
    simp only [bind, Except.bind, pure, Except.pure, hfull]
    simp [List.take_of_length_le]
  · refine ⟨{ b with pbuf := pbuf, iWriteBitPos := pos, ucWriteCharBuf := char,
                     ucReadCharBuf := o <<< b.iReadBitPos }, ?_,
      hconsumed _ (fun _ => rfl) (fun heq => absurd heq hfull) rfl hos' rfl rfl⟩
    have hjoin := h.bitsOf_join (maskBits o b.iReadBitPos)
    rw [take_bitsOf_maskBits o hpos hle] at hjoin
    rw [← hjoin, ofBits_bitsOf]
    simp only [bind, Except.bind, if_neg hfull, pure, Except.pure]

theorem ReadClean.getOctets {b : AsnBufBits} (h : b.ReadClean) {n : ℕ}
    (hlen : 8 * n ≤ b.available.length) :
    ∃ b', AsnBufBits.getOctets n b = .ok (pack (b.available.take (8 * n)), b') ∧
      Consumed b (8 * n) b' := by
  induction n generalizing b with
  | zero => exact ⟨b, rfl, h, rfl, by simp, rfl, rfl⟩
  | succ n ih =>
      obtain ⟨b₁, hget, hb₁⟩ := h.getOctet (by omega)
      have hlen₁ : 8 * n ≤ b₁.available.length := by
        rw [hb₁.available, List.length_drop]
        omega
      obtain ⟨b₂, hgets, hb₂⟩ := ih hb₁.clean hlen₁
      refine ⟨b₂, ?_, by simpa [Nat.mul_add, Nat.add_comm] using hb₁.trans hb₂⟩
      have hsplit : b.available.take (8 * (n + 1)) =
          b.available.take 8 ++ (b.available.drop 8).take (8 * n) := by
        rw [← List.take_add, Nat.mul_add, Nat.mul_one, Nat.add_comm]
      rw [hsplit, pack_append _ (by simp; omega), ← hb₁.available]
      simp only [AsnBufBits.getOctets, hget, hgets, bind, Except.bind, pure, Except.pure]

/-- What is left when the read octet is shifted. -/
theorem ReadClean.consumed_within {b : AsnBufBits} (h : b.ReadClean) {n : ℕ}
    (hfit : n ≤ 8 - b.iReadBitPos) :
    Consumed b n { b with
      ucReadCharBuf := b.ucReadCharBuf <<< n
      iReadBitPos := b.iReadBitPos + n } := by
  have hpos := h.readPos_pos
  have hle := h.readPos_le
  have hkeep : 8 - (b.iReadBitPos + n) = 8 - b.iReadBitPos - n := by omega
  have hshift := bitsOf_shiftLeft b.ucReadCharBuf (show n ≤ 8 by omega)
  have hrem : ((bitsOf b.ucReadCharBuf).take (8 - b.iReadBitPos)).length = 8 - b.iReadBitPos := by
    simp
  refine ⟨⟨Nat.add_pos_left hpos n, by show b.iReadBitPos + n ≤ 8; omega, ?_⟩, ?_, rfl, rfl, rfl⟩
  · show (bitsOf (b.ucReadCharBuf <<< n)).drop (8 - (b.iReadBitPos + n)) = _
    rw [hkeep, hshift, List.drop_append_of_le_length (by simp; omega), List.drop_drop,
      Nat.add_sub_cancel' hfit, h.shifted, List.replicate_append_replicate]
  · rw [available, available, List.drop_append_of_le_length (by omega), List.drop_take]
    show (bitsOf (b.ucReadCharBuf <<< n)).take (8 - (b.iReadBitPos + n)) ++ _ = _
    rw [hkeep, hshift, List.take_append_of_le_length (by simp; omega)]
    rfl

/-- The first available bits are those of the read octet. -/
theorem take_available_within {b : AsnBufBits} {n : ℕ} (hfit : n ≤ 8 - b.iReadBitPos) :
    b.available.take n = (bitsOf b.ucReadCharBuf).take n := by
  rw [available, List.take_append_of_le_length (by simp; omega), List.take_take,
    Nat.min_eq_left hfit]

theorem ReadClean.getExtraBits {b : AsnBufBits} (h : b.ReadClean) {e : ℕ} (he₀ : 0 < e)
    (he : e < 8) (hlen : e ≤ b.available.length) :
    ∃ b', b.getExtraBits e = .ok (ofBits (b.available.take e), b') ∧ Consumed b e b' := by
  have hpos := h.readPos_pos
  have hle := h.readPos_le
  unfold AsnBufBits.getExtraBits
  by_cases hfit : e ≤ 8 - b.iReadBitPos
  · -- the read octet holds all of them
    refine ⟨_, ?_, h.consumed_within hfit⟩
    rw [if_pos hfit, take_available_within hfit]
    congr 2
    apply bitsOf_injective
    rw [bitsOf_maskBits _ he₀ he.le, bitsOf_ofBits (by simp), List.length_take, length_bitsOf,
      Nat.min_eq_left he.le]
  · -- the missing ones come from the next octet
    obtain ⟨o, os, hos⟩ := exists_unread (b := b) (by omega)
    obtain ⟨pbuf, pos, char, hread, hos'⟩ := readByte_eq hos
    obtain ⟨missing, hmissing⟩ : ∃ missing, e = 8 - b.iReadBitPos + missing :=
      ⟨e - (8 - b.iReadBitPos), by omega⟩
    have hsub : e - (8 - b.iReadBitPos) = missing := by omega
    have htake := take_available hos (show missing ≤ 8 by omega)
    have hconsumed := h.consumed_of_next hos (show 0 < missing by omega)
      (show missing ≤ 8 by omega)
    rw [← hmissing] at htake hconsumed
    refine ⟨{ b with pbuf := pbuf, iWriteBitPos := pos, ucWriteCharBuf := char,
                     ucReadCharBuf := o <<< missing, iReadBitPos := missing }, ?_,
      hconsumed _ (fun _ => rfl) (fun heq => by omega) rfl hos' rfl rfl⟩
    have hjoin : b.ucReadCharBuf ||| maskBits o missing >>> (8 - b.iReadBitPos) =
        ofBits (b.available.take e) := by
      apply bitsOf_injective
      have hroom : b.iReadBitPos - missing = 8 - e := by omega
      have hlow : ((bitsOf o).take missing).length = missing := by simp; omega
      have hbits : (b.available.take e).length = e := by simp; omega
      rw [h.bitsOf_join, bitsOf_maskBits o (by omega) (by omega), bitsOf_ofBits (by omega), hbits,
        htake, List.take_append, List.take_take, Nat.min_eq_right (by omega), List.take_replicate,
        hlow, Nat.min_eq_left (by omega), hroom, List.append_assoc]
    have hshift : (if b.iReadBitPos ≠ 8 then maskBits o missing >>> (8 - b.iReadBitPos)
        else maskBits o missing) = maskBits o missing >>> (8 - b.iReadBitPos) := by
      split
      · rfl
      · rename_i heq
        rw [not_not.mp heq]
        simp
    rw [if_neg hfit, hread]
    simp only [bind, Except.bind, pure, Except.pure, hsub, hshift, hjoin]

/-- The reader has consumed `pos` bits and `q` is what has been written and not
read. More may be available: the fill of a last octet. -/
structure Unread (bAligned : Bool) (pos : ℕ) (q : List Bool) (b : AsnBufBits) : Prop where
  bAlign : b.bAlign = bAligned
  clean : b.ReadClean
  readPos : b.iReadBitPos % 8 = pos % 8
  bitsLeft : b.ulBitsLeft = q.length
  content : ∃ fill, b.available = q ++ fill

theorem Unread.length_le {bAligned : Bool} {pos : ℕ} {q : List Bool} {b : AsnBufBits}
    (h : Unread bAligned pos q b) : q.length ≤ b.available.length := by
  obtain ⟨fill, hfill⟩ := h.content
  simp [hfill]

theorem Unread.take_available {bAligned : Bool} {pos : ℕ} {xs rest : List Bool} {b : AsnBufBits}
    (h : Unread bAligned pos (xs ++ rest) b) : b.available.take xs.length = xs := by
  obtain ⟨fill, hfill⟩ := h.content
  simp [hfill]

theorem Unread.consume {bAligned : Bool} {pos : ℕ} {xs rest : List Bool} {b b' : AsnBufBits}
    {n : ℕ} (h : Unread bAligned pos (xs ++ rest) b) (hn : xs.length = n) (hb : Consumed b n b') :
    Unread bAligned (pos + n) rest { b' with ulBitsLeft := subUlong b'.ulBitsLeft n } where
  bAlign := hb.bAlign.trans h.bAlign
  clean := ⟨hb.clean.readPos_pos, hb.clean.readPos_le, hb.clean.shifted⟩
  readPos := by
    show b'.iReadBitPos % 8 = _
    rw [hb.readPos, Nat.add_mod, h.readPos, ← Nat.add_mod]
  bitsLeft := by
    show subUlong b'.ulBitsLeft n = rest.length
    rw [hb.bitsLeft, h.bitsLeft, List.length_append, hn, subUlong_of_le (Nat.le_add_right n _),
      Nat.add_sub_cancel_left]
  content := by
    obtain ⟨fill, hfill⟩ := h.content
    refine ⟨fill, ?_⟩
    show b'.available = rest ++ fill
    rw [hb.available, hfill, ← hn]
    simp

/-- A finished writer, handed to a reader. -/
theorem Written.unread {bAligned : Bool} {bits : List Bool} {b : AsnBufBits}
    (h : Written bAligned bits b) : Unread bAligned 0 bits b where
  bAlign := h.bAlign
  clean := by
    refine ⟨?_, ?_, ?_⟩ <;> simp [h.readPos, h.readChar]
  readPos := by rw [h.readPos]
  bitsLeft := h.bitsLeft
  content := by
    obtain ⟨part, hwc, hbits⟩ := h.content
    have hpart := congrArg List.length hwc
    simp only [length_bitsOf, List.length_append, List.length_replicate] at hpart
    have hnone : (bitsOf b.ucReadCharBuf).take (8 - b.iReadBitPos) = [] := by simp [h.readPos]
    rw [available, unreadOctets, hnone, hbits]
    split
    · exact ⟨List.replicate b.iWriteBitPos false, by simp [hwc]⟩
    · obtain rfl : part = [] := List.length_eq_zero_iff.mp (by omega)
      exact ⟨[], by simp⟩

end AsnBufBits

/-! ### What the calls append and consume -/

section Calls

open AsnBufBits StreamCodec

variable {bAligned : Bool}

theorem emits_putBits (pre : List Bool) {seg : List Octet} {numBits : ℕ}
    (hseg : numBits ≤ 8 * seg.length) :
    Emits (Written bAligned) pre (PerM.putBits seg numBits) numBits
      ((octetBits seg).take numBits) :=
  fun _ hs => ⟨_, rfl, (hs.putBits seg hseg).2⟩

theorem emits_octetAlignWrite (pre : List Bool) :
    Emits (Written bAligned) pre PerM.octetAlignWrite (padding bAligned pre.length)
      (List.replicate (padding bAligned pre.length) false) := by
  intro s hs
  obtain ⟨hcount, hwritten⟩ := hs.octetAlignWrite
  exact ⟨_, by rw [← hcount]; rfl, hwritten⟩

theorem takes_getBits (pos : ℕ) (xs : List Bool) :
    Takes (Unread bAligned) pos xs (PerM.getBits xs.length) (pack xs ++ [0]) := by
  intro b rest hb
  have hlen := hb.length_le
  have hleft := hb.bitsLeft
  have htake := hb.take_available
  rw [List.length_append] at hlen hleft
  have hdiv : 8 * (xs.length / 8) + xs.length % 8 = xs.length := Nat.div_add_mod _ 8
  obtain ⟨b₁, hwhole, hb₁⟩ := hb.clean.getOctets (n := xs.length / 8) (by omega)
  have henough : ¬ b.ulBitsLeft < xs.length := by omega
  have hrun : (PerM.getBits xs.length).run b = b.getBits xs.length := rfl
  rw [hrun]
  unfold AsnBufBits.getBits
  rw [if_neg henough, hwhole]
  by_cases hextra : xs.length % 8 = 0
  · have hall : 8 * (xs.length / 8) = xs.length := by omega
    rw [hall] at hb₁
    refine ⟨{ b₁ with ulBitsLeft := subUlong b₁.ulBitsLeft xs.length }, ?_, hb.consume rfl hb₁⟩
    simp [bind, Except.bind, pure, Except.pure, hextra, hall, htake]
  · obtain ⟨b₂, hlast, hb₂⟩ := hb₁.clean.getExtraBits (e := xs.length % 8) (by omega)
      (Nat.mod_lt _ (by decide)) (by rw [hb₁.available, List.length_drop]; omega)
    have hboth := hb₁.trans hb₂
    rw [hdiv] at hboth
    refine ⟨{ b₂ with ulBitsLeft := subUlong b₂.ulBitsLeft xs.length }, ?_, hb.consume rfl hboth⟩
    have hpack : pack (b.available.take (8 * (xs.length / 8))) ++
        [ofBits (b₁.available.take (xs.length % 8))] = pack xs := by
      obtain ⟨os, ys, hxs, hys, hos⟩ := exists_octets_append xs
      have hlenxs := congrArg List.length hxs
      rw [List.length_append, length_octetBits] at hlenxs
      have hys₀ : ys ≠ [] := by
        rintro rfl
        exact hextra (by simp at hlenxs; omega)
      obtain ⟨fill, hfill⟩ := hb.content
      have hmod : xs.length % 8 = ys.length := by omega
      rw [hb₁.available, hfill, hmod, hxs, pack_octetBits_append, pack_short hys₀ hys, ← hxs, ← hos]
      simp [hxs]
    have hpos : 0 < xs.length % 8 := Nat.pos_of_ne_zero hextra
    rw [← hpack, List.append_assoc]
    simp [bind, Except.bind, pure, Except.pure, hpos, hlast]

/-- A successful call found the bits it asked for. -/
theorem getBits_run_eq_ok {pos numBits : ℕ} {q : List Bool} {b b' : AsnBufBits} {seg : List Octet}
    (hb : Unread bAligned pos q b) (h : (PerM.getBits numBits).run b = .ok (seg, b')) :
    numBits ≤ q.length ∧ seg = pack (q.take numBits) ++ [0] ∧
      Unread bAligned (pos + numBits) (q.drop numBits) b' := by
  rcases Nat.lt_or_ge q.length numBits with hshort | henough
  · have hrun : (PerM.getBits numBits).run b = b.getBits numBits := rfl
    rw [hrun, AsnBufBits.getBits, if_pos (by rwa [hb.bitsLeft])] at h
    cases h
  · have hlen : (q.take numBits).length = numBits := List.length_take_of_le henough
    rw [← List.take_append_drop numBits q] at hb
    obtain ⟨b₁, hrun, hb₁⟩ := takes_getBits pos (q.take numBits) b _ hb
    rw [hlen] at hrun hb₁
    obtain ⟨rfl, rfl⟩ := Prod.mk.inj (Except.ok.inj (hrun.symm.trans h))
    exact ⟨henough, rfl, hb₁⟩

private theorem testHighBit (o : Octet) : ((o &&& 0x80) != 0) = o.getMsbD 0 := by
  revert o
  decide

theorem take_one_bitsOf (o : Octet) : (bitsOf o).take 1 = [(o &&& 0x80) != 0] := by
  rw [testHighBit]
  rfl

theorem takes_getBit (pos : ℕ) (x : Bool) :
    Takes (Unread bAligned) pos [x] PerM.getBit x := by
  intro b rest hb
  have hlen := hb.length_le
  have hleft := hb.bitsLeft
  have htake := hb.take_available
  have hle := hb.clean.readPos_le
  have hsome : b.ulBitsLeft ≠ 0 := by simp [hleft]
  have hrun : (PerM.getBit).run b = b.getBit := rfl
  rw [hrun]
  unfold AsnBufBits.getBit
  rw [if_neg hsome]
  by_cases hfull : b.iReadBitPos = 8
  · obtain ⟨o, os, hos⟩ := exists_unread (b := b) (by simp at hlen; omega)
    obtain ⟨pbuf, wpos, char, hread, hos'⟩ := readByte_eq hos
    have hbit := AsnBufBits.take_available hos (show 1 ≤ 8 by decide)
    have hconsumed := hb.clean.consumed_of_next hos Nat.one_pos (by decide)
      { b with pbuf := pbuf, iWriteBitPos := wpos, ucWriteCharBuf := char,
               ucReadCharBuf := o <<< 1, iReadBitPos := 1 }
      (fun _ => rfl) (fun heq => by cases heq) rfl hos' rfl rfl
    rw [hfull] at hbit hconsumed
    rw [take_one_bitsOf] at hbit
    have hx : x = ((o &&& 0x80) != 0) := by
      simpa using htake.symm.trans hbit
    refine ⟨_, ?_, hb.consume rfl hconsumed⟩
    simp only [bind, Except.bind, pure, Except.pure, if_pos hfull, hread, hx]
    rfl
  · have hbit := take_available_within (b := b) (n := 1) (by omega)
    have hx : x = ((b.ucReadCharBuf &&& 0x80) != 0) := by
      rw [take_one_bitsOf] at hbit
      simpa using htake.symm.trans hbit
    refine ⟨_, ?_, hb.consume rfl (hb.clean.consumed_within (n := 1) (by omega))⟩
    simp only [bind, Except.bind, pure, Except.pure, if_neg hfull, hx]
    rfl

theorem takes_getByte (pos : ℕ) (o : Octet) :
    Takes (Unread bAligned) pos (bitsOf o) PerM.getByte o := by
  intro b rest hb
  have hlen := hb.length_le
  have hleft := hb.bitsLeft
  have htake := hb.take_available
  have hpos := hb.clean.readPos_pos
  have hle := hb.clean.readPos_le
  simp only [List.length_append, length_bitsOf] at hlen hleft htake
  have henough : ¬ b.ulBitsLeft < 8 := by omega
  obtain ⟨ch, os, hos⟩ := exists_unread (b := b) (by omega)
  obtain ⟨pbuf, wpos, char, hread, hos'⟩ := readByte_eq hos
  have hbits := AsnBufBits.take_available hos hle
  have hconsumed := hb.clean.consumed_of_next hos hpos hle
  rw [Nat.sub_add_cancel hle] at hbits hconsumed
  have hrun : (PerM.getByte).run b = b.getByte := rfl
  rw [hrun]
  unfold AsnBufBits.getByte
  rw [if_neg henough, hread]
  by_cases hfull : b.iReadBitPos = 8
  · have ho : ch = o := by
      apply bitsOf_injective
      rw [← htake, hbits, hfull]
      simp [List.take_of_length_le]
    have hnext := hconsumed { b with pbuf := pbuf, iWriteBitPos := wpos, ucWriteCharBuf := char }
      (fun hlt => absurd hfull hlt.ne) (fun _ => ⟨hpos, hle, hb.clean.shifted⟩) rfl hos' rfl rfl
    refine ⟨_, ?_, hb.consume (length_bitsOf o) hnext⟩
    simp only [bind, Except.bind, pure, Except.pure, if_pos hfull, ho, length_bitsOf]
  · have ho : b.ucReadCharBuf ||| ch >>> (8 - b.iReadBitPos) = o := by
      apply bitsOf_injective
      rw [hb.clean.bitsOf_join, ← htake, hbits]
    have hnext := hconsumed
      { b with pbuf := pbuf, iWriteBitPos := wpos, ucWriteCharBuf := char,
               ucReadCharBuf := ch <<< b.iReadBitPos }
      (fun _ => rfl) (fun heq => absurd heq hfull) rfl hos' rfl rfl
    refine ⟨_, ?_, hb.consume (length_bitsOf o) hnext⟩
    simp only [bind, Except.bind, pure, Except.pure, if_neg hfull, ho, length_bitsOf]

/-- What is skipped up to the next octet boundary, whatever it is. -/
theorem takes_octetAlignRead (pos : ℕ) {xs : List Bool} (hxs : xs.length = padding bAligned pos) :
    Takes (Unread bAligned) pos xs PerM.octetAlignRead (padding bAligned pos) := by
  intro b rest hb
  have hpos := hb.clean.readPos_pos
  have hle := hb.clean.readPos_le
  have hread := hb.readPos
  have hrun : (PerM.octetAlignRead).run b = .ok b.octetAlignRead := rfl
  rw [hrun]
  unfold AsnBufBits.octetAlignRead
  rw [hb.bAlign]
  cases bAligned with
  | false =>
      obtain rfl : xs = [] := List.length_eq_zero_iff.mp hxs
      exact ⟨b, rfl, by simpa using hb⟩
  | true =>
      have hpad : padding true pos = 8 - b.iReadBitPos := by
        simp only [padding, if_true]
        omega
      have hconsumed : Consumed b xs.length { b with iReadBitPos := 8, ucReadCharBuf := 0 } := by
        rw [hxs, hpad]
        refine ⟨⟨by simp, by simp, by simp⟩, ?_, by simp only; omega, rfl, rfl⟩
        rw [available, available, List.drop_append_of_le_length (by simp), List.drop_take]
        simp [unreadOctets]
      refine ⟨_, ?_, hb.consume rfl hconsumed⟩
      rw [if_pos rfl, hxs, hpad]
      simp [hb.bAlign]

/-- The bits determine the buffer as far as its users can tell, and there is a
buffer for all bits. -/
theorem bitBuffer_faithful (bAligned : Bool) : Faithful (Written bAligned) (Unread bAligned) where
  written_unique := by
    intro pre pre' b h h'
    obtain ⟨part, hchar, hpre⟩ := h.content
    obtain ⟨part', hchar', hpre'⟩ := h'.content
    rw [hchar, List.append_cancel_right_eq] at hchar'
    rw [hpre, hpre', hchar']
  unread_unique := by
    intro p p' q q' b h h'
    obtain ⟨fill, hfill⟩ := h.content
    obtain ⟨fill', hfill'⟩ := h'.content
    rw [hfill] at hfill'
    exact (List.append_inj hfill' (h.bitsLeft.symm.trans h'.bitsLeft)).1
  exists_written := by
    intro pre
    have h := ((written_new bAligned).putBits (pack pre)
      (show pre.length ≤ 8 * (pack pre).length by rw [length_pack]; omega)).2
    rw [octetBits_pack, List.take_left, List.nil_append] at h
    exact ⟨_, h⟩
  exists_unread := by
    intro p q
    have h := ((written_new bAligned).putBits (pack (List.replicate p false ++ q))
      (show p + q.length ≤ 8 * (pack (List.replicate p false ++ q)).length by
        rw [length_pack, List.length_append, List.length_replicate]; omega)).2
    rw [octetBits_pack, List.nil_append, List.take_left' (by simp)] at h
    obtain ⟨b, -, hb⟩ := takes_getBits 0 (List.replicate p false) _ q h.unread
    rw [List.length_replicate, Nat.zero_add] at hb
    exact ⟨b, hb⟩

end Calls

end Esnacc
