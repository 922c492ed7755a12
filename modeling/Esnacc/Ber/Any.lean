import Esnacc.Lib.StreamCodec
import Esnacc.Ber.ConsString

/-!
Open types: an element that is not understood is kept as its octets. The reader takes the
header first, to learn where the element ends, and goes back to its start; `GrabAny`
remembers the start, `GrabAnyEx` recomputes the size of the header from the tag and the
length that were decoded.
-/

namespace Esnacc

open BitString Tlv

namespace AsnBuf

/-- The number of octets behind the header. The contents of an open length are walked
through, and whatever is thrown there is replaced. -/
def payload (payloadLen ourLength : ℕ) : BerM ℕ :=
  if payloadLen = indefiniteLen then fun b =>
    match (ConsStringDeck.fill 0 payloadLen 0).run b with
    | .ok ((_, lTmpbytesDecoded), b) => .ok (lTmpbytesDecoded, b)
    | .error (.thrown _) =>
        .error (bufferException "deck.Fill(...) failed, unexpected exception (STACK?)")
    | .error e => .error e
  else if ourLength < payloadLen then throw (bufferException "len error from BDecLen call")
  else return payloadLen

/-- `GrabAnyEx`. After an open length the reader stands behind the contents, and goes back
by the size of the header all the same. -/
def grabAnyEx (headerLen payloadLen bytesDecoded : ℕ) : BerM (List Octet × ℕ) := do
  let ourLength ← length
  let payloadLen ← payload payloadLen ourLength
  unGetBytes headerLen
  let m_buf ← getSeg (headerLen + payloadLen)
  return (m_buf, bytesDecoded + payloadLen)

def grabAny (bytesDecoded : ℕ) : BerM (List Octet × ℕ) := do
  let tmpLen := bytesDecoded
  let readLoc ← getReadLoc
  let (_, bytesDecoded) ← bDecTag bytesDecoded
  let (payloadLen, bytesDecoded) ← bDecLen bytesDecoded
  let headerLen := bytesDecoded - tmpLen
  let ourLength ← length
  let payloadLen ← payload payloadLen ourLength
  setReadLoc readLoc
  let m_buf ← getSeg (headerLen + payloadLen)
  return (m_buf, bytesDecoded + payloadLen)

/-- `AsnRvsBuf(otherBuf)`: a card with the octets that `length()` counts. -/
def copyCard (len : ℕ) (otherBuf : List Octet) : Except Fault Card :=
  if len = 0 then .ok Card.new
  else if len ≤ otherBuf.length then .ok ⟨otherBuf.take len, 0, none⟩
  else .error (bufferException "Read past end of data")

/-- `insert`. -/
def insert (b : Deck) (that : List Octet) : Except Fault Deck :=
  (copyCard (bytesRemaining ⟨[], that⟩) that).map fun card => card :: b.dropEmptyCard

end AsnBuf

/-! An `AsnAny` without a known type and a decoded value is the octets in its `anyBuf`. -/

namespace AsnAny

def bEnc (anyBuf : List Octet) (b : Deck) : Except Fault (ℕ × Deck) :=
  (AsnBuf.insert b anyBuf).map fun b => (AsnBuf.bytesRemaining ⟨[], anyBuf⟩, b)

def bDec (bytesDecoded : ℕ) : BerM (List Octet × ℕ) := AsnBuf.grabAny bytesDecoded

def bDecContent (tag : AsnTag) (elmtLen bytesDecoded : ℕ) : BerM (List Octet × ℕ) :=
  AsnBuf.grabAnyEx (bytesInTag tag + bytesInLen elmtLen) elmtLen bytesDecoded

/-- What a CHOICE does with an alternative that is an open type. -/
def bDecAlternative (bytesDecoded : ℕ) : BerM (List Octet × ℕ) := do
  let (tag, bytesDecoded) ← bDecTag bytesDecoded
  let (elmtLen, bytesDecoded) ← bDecLen bytesDecoded
  bDecContent tag elmtLen bytesDecoded

/-- An element is kept as its octets by both ways of decoding, with the reader behind it,
and is written as it was. -/
structure Captures (past rest os : List Octet) : Prop where
  bDec : ∀ n, Cursor.Reads past rest (AsnAny.bDec n) os (os, n + os.length)
  bDecContent : ∀ n, Cursor.Reads past rest (bDecAlternative n) os (os, n + os.length)
  bEnc : ∀ b : Deck, b.Intact →
    ∃ n b', AsnAny.bEnc os b = .ok (n, b') ∧ b'.octets = os ++ b.octets

end AsnAny

/-! ### What is grabbed -/

theorem AsnBuf.payload_definite {payloadLen ourLength : ℕ} (hdefinite : payloadLen ≠ indefiniteLen)
    (hfit : payloadLen ≤ ourLength) : payload payloadLen ourLength = pure payloadLen := by
  rw [payload, if_neg hdefinite, if_neg (Nat.not_lt.mpr hfit)]

theorem AsnBuf.payload_short {payloadLen ourLength : ℕ} (hdefinite : payloadLen ≠ indefiniteLen)
    (hshort : ourLength < payloadLen) :
    payload payloadLen ourLength = throw (bufferException "len error from BDecLen call") := by
  rw [payload, if_neg hdefinite, if_pos hshort]

/-- Behind a header and in front of its contents. -/
theorem AsnBuf.grabAnyEx_reads (past rest : List Octet) {header body : List Octet}
    (hdefinite : body.length ≠ indefiniteLen)
    (hfit : body.length ≤ bytesRemaining ⟨header.reverse ++ past, body ++ rest⟩) (n : ℕ) :
    (grabAnyEx header.length body.length n).run ⟨header.reverse ++ past, body ++ rest⟩ =
      .ok ((header ++ body, n + body.length), ⟨(header ++ body).reverse ++ past, rest⟩) := by
  have hlength : length.run ⟨header.reverse ++ past, body ++ rest⟩ = pure (_, _) :=
    length_run _
  have hback : (unGetBytes header.length).run ⟨header.reverse ++ past, body ++ rest⟩ =
      pure ((), ⟨past, (header ++ body) ++ rest⟩) := by
    show (if _ then _ else _) = _
    rw [if_pos (by simp), Cursor.goBack_append rfl, List.append_assoc]
    rfl
  have hseg : (getSeg (header.length + body.length)).run ⟨past, (header ++ body) ++ rest⟩ =
      pure (header ++ body, ⟨(header ++ body).reverse ++ past, rest⟩) := by
    rw [← List.length_append]
    exact getSeg_reads past rest (header ++ body)
  rw [grabAnyEx, StateT.run_bind, hlength, pure_bind, payload_definite hdefinite hfit, pure_bind,
    StateT.run_bind, hback, pure_bind, StateT.run_bind, hseg, pure_bind]
  rfl

/-- What is grabbed is as long as the header that was asked for and the contents. -/
theorem AsnBuf.of_grabAnyEx {headerLen payloadLen n n' : ℕ} {b b' : AsnBuf} {seg : List Octet}
    (h : (grabAnyEx headerLen payloadLen n).run b = .ok ((seg, n'), b')) :
    ∃ left, n' = n + left ∧ seg.length = headerLen + left ∧
      (payloadLen ≠ indefiniteLen → left = payloadLen ∧ payloadLen ≤ bytesRemaining b) := by
  obtain ⟨ourLength, b₁, hlength, h⟩ := StreamCodec.run_bind_eq_ok h
  obtain ⟨rfl, rfl⟩ := Prod.mk.inj (Except.ok.inj hlength)
  obtain ⟨left, b₂, hpayload, h⟩ := StreamCodec.run_bind_eq_ok h
  obtain ⟨_, b₃, -, h⟩ := StreamCodec.run_bind_eq_ok h
  obtain ⟨m_buf, b₄, hseg, h⟩ := StreamCodec.run_bind_eq_ok h
  obtain ⟨hr, -⟩ := Prod.mk.inj (Except.ok.inj h)
  obtain ⟨rfl, rfl⟩ := Prod.mk.inj hr
  refine ⟨left, rfl, ?_, fun hdefinite => ?_⟩
  · rw [StateT.run, getSeg] at hseg
    split at hseg
    · next hfit =>
        obtain ⟨rfl, -⟩ := Prod.mk.inj (Except.ok.inj hseg)
        rw [List.length_take, Nat.min_eq_left hfit]
    · cases hseg
  · by_cases hfit : payloadLen ≤ bytesRemaining b
    · rw [payload_definite hdefinite hfit] at hpayload
      exact ⟨(Prod.mk.inj (Except.ok.inj hpayload)).1.symm, hfit⟩
    · rw [payload_short hdefinite (Nat.lt_of_not_le hfit)] at hpayload
      cases hpayload

/-- The same for an element whose start was remembered. -/
theorem AsnBuf.grabAny_reads (past rest : List Octet) {tag len body : List Octet}
    (htag : isIdentifier tag) (htagLen : tag.length ≤ 4) (hlen : isLengthOf body.length len)
    (hlenLen : len.length ≤ 9) (hdefinite : body.length ≠ indefiniteLen)
    (hfit : body.length ≤ bytesRemaining ⟨(tag ++ len).reverse ++ past, body ++ rest⟩) (n : ℕ) :
    Cursor.Reads past rest (grabAny n) (tag ++ (len ++ body))
      (tag ++ (len ++ body), n + (tag ++ (len ++ body)).length) := by
  have hsize : n + tag.length + len.length - n + body.length = (tag ++ (len ++ body)).length := by
    simp only [List.length_append]
    omega
  have hcount : n + tag.length + len.length + body.length =
      n + (tag ++ (len ++ body)).length := by
    simp only [List.length_append]
    omega
  have hloc : getReadLoc.run ⟨past, tag ++ (len ++ (body ++ rest))⟩ =
      pure (past.length, ⟨past, tag ++ (len ++ (body ++ rest))⟩) := rfl
  have hrun₁ : (bDecTag n).run ⟨past, tag ++ (len ++ (body ++ rest))⟩ =
      pure ((tagOf tag, n + tag.length), ⟨tag.reverse ++ past, len ++ (body ++ rest)⟩) :=
    bDecTag_reads past _ htag htagLen n
  have hrun₂ : (bDecLen (n + tag.length)).run ⟨tag.reverse ++ past, len ++ (body ++ rest)⟩ =
      pure ((body.length, n + tag.length + len.length),
        ⟨(tag ++ len).reverse ++ past, body ++ rest⟩) := by
    rw [List.reverse_append, List.append_assoc]
    exact bDecLen_reads _ _ hlen hlenLen _
  have hlength : length.run ⟨(tag ++ len).reverse ++ past, body ++ rest⟩ = pure (_, _) :=
    length_run _
  have hseek : (setReadLoc past.length).run ⟨(tag ++ len).reverse ++ past, body ++ rest⟩ =
      pure ((), ⟨past, (tag ++ (len ++ body)) ++ rest⟩) := by
    show Except.ok ((), Cursor.seek _ _) = _
    rw [Cursor.seek_append]
    simp only [List.append_assoc]
    rfl
  have hseg : (getSeg (n + tag.length + len.length - n + body.length)).run
      ⟨past, (tag ++ (len ++ body)) ++ rest⟩ =
        pure (tag ++ (len ++ body), ⟨(tag ++ (len ++ body)).reverse ++ past, rest⟩) := by
    rw [hsize]
    exact getSeg_reads past rest (tag ++ (len ++ body))
  rw [Cursor.Reads, List.append_assoc, List.append_assoc, grabAny, StateT.run_bind, hloc,
    pure_bind, StateT.run_bind, hrun₁, pure_bind, StateT.run_bind, hrun₂, pure_bind,
    StateT.run_bind, hlength, pure_bind, payload_definite hdefinite hfit, pure_bind,
    StateT.run_bind, hseek, pure_bind, StateT.run_bind, hseg, pure_bind, hcount]
  rfl

namespace AsnAny

/-- Behind the header, the size of the header is recomputed. -/
theorem run_bDecAlternative (past rest : List Octet) {tag len body : List Octet} {elmtLen n : ℕ}
    (htag : isIdentifier tag) (htagLen : tag.length ≤ 4)
    (hlen : Cursor.Reads (tag.reverse ++ past) (body ++ rest) (bDecLen (n + tag.length)) len
      (elmtLen, n + tag.length + len.length)) :
    (bDecAlternative n).run ⟨past, (tag ++ (len ++ body)) ++ rest⟩ =
      (AsnBuf.grabAnyEx (bytesInTag (tagOf tag) + bytesInLen elmtLen) elmtLen
        (n + tag.length + len.length)).run ⟨(tag ++ len).reverse ++ past, body ++ rest⟩ := by
  have htagRead := bDecTag_reads past (len ++ (body ++ rest)) htag htagLen n
  rw [List.append_assoc, List.append_assoc, bDecAlternative, htagRead.run_bind, hlen.run_bind,
    List.reverse_append, List.append_assoc]
  rfl

/-- An element that is captured behind its header had the size that is recomputed. -/
theorem size_of_captured {past rest tag len body : List Octet} {elmtLen n : ℕ}
    (htag : isIdentifier tag) (htagLen : tag.length ≤ 4)
    (hlen : Cursor.Reads (tag.reverse ++ past) (body ++ rest) (bDecLen (n + tag.length)) len
      (elmtLen, n + tag.length + len.length))
    (h : Cursor.Reads past rest (bDecAlternative n) (tag ++ (len ++ body))
      (tag ++ (len ++ body), n + (tag ++ (len ++ body)).length)) :
    bytesInTag (tagOf tag) + bytesInLen elmtLen = tag.length + len.length ∧
      (elmtLen ≠ indefiniteLen →
        elmtLen ≤ AsnBuf.bytesRemaining ⟨(tag ++ len).reverse ++ past, body ++ rest⟩) := by
  rw [Cursor.Reads, run_bDecAlternative past rest htag htagLen hlen] at h
  obtain ⟨left, hcount, hsize, hdefinite⟩ := AsnBuf.of_grabAnyEx h
  simp only [List.length_append] at hcount hsize
  exact ⟨by omega, fun hne => (hdefinite hne).2⟩

theorem readable_of_captured {past rest tag len body : List Octet} {n : ℕ} {a : List Octet × ℕ}
    (htag : isIdentifier tag)
    (h : Cursor.Reads past rest (bDecAlternative n) (tag ++ (len ++ body)) a) :
    tag.length ≤ 4 ∧ ∀ k, isLengthOf k len → len.length ≤ 9 := by
  have htagLen : tag.length ≤ 4 := by
    by_contra hlong
    refine Cursor.Fails.not_reads ?_ h
    rw [List.append_assoc]
    exact (bDecTag_fails past _ htag (Nat.lt_of_not_le hlong) n).bind
  refine ⟨htagLen, fun k hk => ?_⟩
  by_contra hlong
  refine Cursor.Fails.not_reads ?_ h
  rw [List.append_assoc, List.append_assoc]
  exact (bDecTag_reads past _ htag htagLen n).bind_fails
    (bDecLen_fails _ _ hk (Nat.lt_of_not_le hlong) _).bind

/-- A copy is complete when `length()` counts right. -/
theorem segment_copyCard_iff {len : ℕ} {os : List Octet} (hne : os ≠ []) :
    (∃ card, AsnBuf.copyCard len os = .ok card ∧ card.segment = os) ↔ len = os.length := by
  have hpos := List.length_pos_iff.mpr hne
  constructor
  · rintro ⟨card, hcard, hsegment⟩
    rw [AsnBuf.copyCard] at hcard
    split at hcard
    · obtain rfl := Except.ok.inj hcard
      exact absurd hsegment.symm hne
    · split at hcard
      · next hfit =>
          obtain rfl := Except.ok.inj hcard
          have hlen := congrArg List.length hsegment
          simp only [List.length_take, Nat.min_eq_left hfit] at hlen
          exact hlen
      · cases hcard
  · rintro rfl
    refine ⟨⟨os, 0, none⟩, ?_, rfl⟩
    rw [AsnBuf.copyCard, if_neg (Nat.ne_of_gt hpos), if_pos le_rfl, List.take_length]

theorem bEnc_of_copyCard {os : List Octet} {card : Card}
    (h : AsnBuf.copyCard (AsnBuf.bytesRemaining ⟨[], os⟩) os = .ok card) (b : Deck) :
    bEnc os b = .ok (AsnBuf.bytesRemaining ⟨[], os⟩, card :: b.dropEmptyCard) := by
  rw [bEnc, AsnBuf.insert, h]
  rfl

theorem bEnc_iff {os : List Octet} (hne : os ≠ []) :
    (∀ b : Deck, b.Intact → ∃ n b', bEnc os b = .ok (n, b') ∧ b'.octets = os ++ b.octets) ↔
      AsnBuf.bytesRemaining ⟨[], os⟩ = os.length := by
  rw [← segment_copyCard_iff hne]
  unfold bEnc AsnBuf.insert
  generalize AsnBuf.bytesRemaining ⟨[], os⟩ = len
  constructor
  · intro h
    obtain ⟨n, b', hrun, hoctets⟩ := h [] (fun c hc => absurd hc List.not_mem_nil)
    cases hcard : AsnBuf.copyCard len os with
    | error e =>
        rw [hcard] at hrun
        cases hrun
    | ok card =>
        rw [hcard] at hrun
        obtain ⟨-, rfl⟩ := Prod.mk.inj (Except.ok.inj hrun)
        exact ⟨card, rfl, by simpa [Deck.dropEmptyCard] using hoctets⟩
  · rintro ⟨card, hcard, hsegment⟩ b hb
    rw [hcard]
    refine ⟨_, _, rfl, ?_⟩
    rw [Deck.octets_cons, hsegment, hb.octets_dropEmptyCard]

end AsnAny

/-- A length that reads as the mark of an open one takes nine octets. -/
theorem lt_length_of_indefiniteLen {len : List Octet} (h : isLengthOf indefiniteLen len) :
    8 < len.length := by
  cases len with
  | nil => cases h
  | cons o os =>
      rw [isLengthOf] at h
      split at h
      · next hshort =>
          simp only [Bool.and_eq_true, beq_iff_eq] at h
          rw [indefiniteLen] at h
          omega
      · simp only [Bool.and_eq_true, beq_iff_eq] at h
        have hlt := natOfOctets_lt os
        by_contra hshort
        have hpow : 256 ^ os.length ≤ 256 ^ 7 :=
          Nat.pow_le_pow_right (by decide) (by rw [List.length_cons] at hshort; omega)
        rw [h.2, indefiniteLen] at hlt
        omega

theorem bytesInTag_le (tag : AsnTag) : bytesInTag tag ≤ 4 := by
  unfold bytesInTag
  split_ifs <;> decide

theorem bytesInLen_le (len : ℕ) : bytesInLen len ≤ 5 := by
  unfold bytesInLen
  split_ifs <;> decide

theorem octets_ne_nil {tag : List Octet} (h : isIdentifier tag) (os : List Octet) :
    tag ++ os ≠ [] := by
  intro hnil
  obtain ⟨rfl, -⟩ := List.append_eq_nil_iff.mp hnil
  cases h

/-- Behind a header whose size is recomputed right there are contents of that length. -/
theorem captures_definite_iff (past rest : List Octet) {tag len body : List Octet}
    (htag : isIdentifier tag) (hlen : isLengthOf body.length len) :
    AsnAny.Captures past rest (tag ++ (len ++ body)) ↔
      tag.length ≤ 4 ∧ len.length ≤ 9 ∧
        bytesInTag (tagOf tag) + bytesInLen body.length = tag.length + len.length ∧
        body.length ≤ AsnBuf.bytesRemaining ⟨(tag ++ len).reverse ++ past, body ++ rest⟩ ∧
        AsnBuf.bytesRemaining ⟨[], tag ++ (len ++ body)⟩ = (tag ++ (len ++ body)).length := by
  -- when the recomputed size is right, the length is not the mark of an open one
  have hdefinite : bytesInTag (tagOf tag) + bytesInLen body.length = tag.length + len.length →
      body.length ≠ indefiniteLen := by
    intro hsize hindef
    have hlong := lt_length_of_indefiniteLen (hindef ▸ hlen)
    have h₁ := bytesInTag_le (tagOf tag)
    have h₂ := bytesInLen_le body.length
    have h₃ : 0 < tag.length := List.length_pos_iff.mpr fun h => by
      rw [h] at htag
      cases htag
    omega
  constructor
  · intro h
    obtain ⟨htagLen, hlenLen⟩ := AsnAny.readable_of_captured htag (h.bDecContent 0)
    have hread := bDecLen_reads (tag.reverse ++ past) (body ++ rest) hlen (hlenLen _ hlen)
      (0 + tag.length)
    obtain ⟨hsize, hfit⟩ := AsnAny.size_of_captured htag htagLen hread (h.bDecContent 0)
    exact ⟨htagLen, hlenLen _ hlen, hsize, hfit (hdefinite hsize),
      (AsnAny.bEnc_iff (octets_ne_nil htag _)).mp h.bEnc⟩
  · rintro ⟨htagLen, hlenLen, hsize, hfit, hcopy⟩
    refine ⟨fun n => AsnBuf.grabAny_reads past rest htag htagLen hlen hlenLen (hdefinite hsize)
      hfit n, fun n => ?_, (AsnAny.bEnc_iff (octets_ne_nil htag _)).mpr hcopy⟩
    have hread := bDecLen_reads (tag.reverse ++ past) (body ++ rest) hlen hlenLen (n + tag.length)
    rw [Cursor.Reads, AsnAny.run_bDecAlternative past rest htag htagLen hread, hsize,
      ← List.length_append, AsnBuf.grabAnyEx_reads past rest (hdefinite hsize) hfit,
      List.append_assoc]
    simp only [List.length_append, Nat.add_assoc]

theorem not_captures_indefinite (past rest : List Octet) {tag body : List Octet}
    (htag : isIdentifier tag) : ¬ AsnAny.Captures past rest (tag ++ ([openLength] ++ body)) := by
  intro h
  obtain ⟨htagLen, -⟩ := AsnAny.readable_of_captured htag (h.bDecContent 0)
  have hread := bDecLen_openLength (tag.reverse ++ past) (body ++ rest) (0 + tag.length)
  obtain ⟨hsize, -⟩ := AsnAny.size_of_captured htag htagLen hread (h.bDecContent 0)
  have hpos := bytesInTag_pos (tagOf tag)
  have hfive : bytesInLen indefiniteLen = 5 := by decide
  rw [hfive, List.length_singleton] at hsize
  omega

/-- Exactly these elements are captured as they are, by both ways of decoding. -/
theorem captures_iff (past rest : List Octet) {e : Element} (h : e.WellFormed) :
    AsnAny.Captures past rest e.octets ↔
      e.HasDefiniteLength ∧ e.header.1.length ≤ 4 ∧ e.header.2.length ≤ 9 ∧
        bytesInTag (tagOf e.header.1) + bytesInLen e.body.length =
          e.header.1.length + e.header.2.length ∧
        e.body.length ≤
          AsnBuf.bytesRemaining ⟨(e.header.1 ++ e.header.2).reverse ++ past, e.body ++ rest⟩ ∧
        AsnBuf.bytesRemaining ⟨[], e.octets⟩ = e.octets.length := by
  rw [e.octets_eq]
  cases e with
  | primitive tag len contents =>
      obtain ⟨htag, -, hlen⟩ := h
      exact (captures_definite_iff past rest htag hlen).trans (by simp [Element.HasDefiniteLength,
        Element.header, Element.body])
  | definite tag len elements =>
      obtain ⟨htag, -, hlen, -⟩ := h
      exact (captures_definite_iff past rest htag hlen).trans (by simp [Element.HasDefiniteLength,
        Element.header, Element.body])
  | indefinite tag elements =>
      exact iff_of_false (not_captures_indefinite past rest h.1) fun h => h.1

theorem captures_octetString :
    AsnAny.Captures [] [1] (Element.primitive [0x04] [0x02] [7, 9]).octets :=
  (captures_iff [] [1] (e := .primitive [0x04] [0x02] [7, 9]) ⟨by decide, by decide, by decide⟩).mpr
    ⟨trivial, by decide, by decide, by decide, by decide, by decide⟩

/-- The tag number 128: its last octet is zero, and the recomputed header is too short. -/
theorem not_captures_tag128 :
    ¬ ∀ (e : Element) (past rest : List Octet), e.WellFormed →
      AsnAny.Captures past rest e.octets := by
  intro h
  have hcaptures := h (.primitive [0x9F, 0x81, 0x00] [0x01] [5]) [] []
    ⟨by decide, by decide, by decide⟩
  obtain ⟨-, -, hsize, -⟩ := (@captures_definite_iff [] [] [0x9F, 0x81, 0x00] [0x01] [5] (by decide)
    (by decide)).mp hcaptures
  exact absurd hsize (by decide)

end Esnacc
