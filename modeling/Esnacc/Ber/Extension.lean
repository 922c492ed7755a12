import Esnacc.Ber.Any

/-!
`AsnExtension`: what stands behind the known components of an extensible SEQUENCE is
kept, element by element, as open types, and written back.
-/

namespace Esnacc

open BitString Tlv

namespace AsnExtension

/-- The test for the end of contents, which looks at the octet behind the tag. -/
def atEoc (elementLen : ℕ) : BerM Bool :=
  if elementLen = indefiniteLen then do
    let bNext ← AsnBuf.peekByte
    return bNext == 0
  else return false

/-- The loop of `readFromBuffer`: what is inserted into `extList`. The fuel bounds the
number of passes. -/
def readElements (elementLen : ℕ) : ℕ → AsnTag → ℕ → BerM (List (List Octet) × ℕ)
  | 0, _, _ => throw (.undefinedBehaviour "the loop does not end")
  | fuel + 1, tag, bytesDecoded => do
      let eoc ← atEoc elementLen
      if eoc then
        let bytesDecoded ← bDecEoc bytesDecoded
        return ([], bytesDecoded)
      else
        let storedBytesDecoded := bytesDecoded
        let (payLoadLen, bytesDecoded) ← bDecLen bytesDecoded
        let headerLen := bytesInTag tag + bytesDecoded - storedBytesDecoded
        let (anyBuf, bytesDecoded) ← AsnBuf.grabAnyEx headerLen payLoadLen bytesDecoded
        if elementLen ≤ bytesDecoded then return ([anyBuf], bytesDecoded)
        else
          let (tag, bytesDecoded) ← bDecTag bytesDecoded
          let (extList, bytesDecoded) ← readElements elementLen fuel tag bytesDecoded
          return (anyBuf :: extList, bytesDecoded)

def readFromBuffer (tag : AsnTag) (elementLen bytesDecoded : ℕ) :
    BerM (List (List Octet) × ℕ) := fun b =>
  if bytesDecoded = elementLen ∨ tag = 0 then .ok (([], bytesDecoded), b)
  else (readElements elementLen (b.rest.length + 1) tag bytesDecoded).run b

/-- How `readFromBuffer` is called: the tag behind the last known component has been
read, if anything is left. -/
def bDecRest (elementLen seqBytesDecoded : ℕ) : BerM (List (List Octet) × ℕ) :=
  if seqBytesDecoded = elementLen then readFromBuffer 0 elementLen seqBytesDecoded
  else do
    let (tag, seqBytesDecoded) ← bDecTag seqBytesDecoded
    readFromBuffer tag elementLen seqBytesDecoded

/-- `BEnc`: the last element is written first. -/
def bEnc (extList : List (List Octet)) (b : Deck) : Except Fault (ℕ × Deck) :=
  extList.foldr (fun anyBuf written => do
    let (l, b) ← written
    let (n, b) ← AsnAny.bEnc anyBuf b
    return (l + n, b)) (.ok (0, b))

/-- The elements behind `n` octets of known components survive: each is kept as its
octets, they are counted, the reader stands behind them, and they are written as they
were. In an enclosing element whose length was left open, the end of contents may be
read, if what is read is counted. -/
structure Survive (past rest : List Octet) (n : ℕ) (isOpen : Bool) (es : List Element) :
    Prop where
  bDec : if isOpen then
      ∃ eoc left, eoc ++ left = endOfContents ∧
        Cursor.Reads past (left ++ rest) (bDecRest indefiniteLen n) (Element.octetsAll es ++ eoc)
          (es.map Element.octets, n + (Element.octetsAll es).length + eoc.length)
    else
      Cursor.Reads past rest (bDecRest (n + (Element.octetsAll es).length) n)
        (Element.octetsAll es) (es.map Element.octets, n + (Element.octetsAll es).length)
  bEnc : ∀ b : Deck, b.Intact → ∃ l b', AsnExtension.bEnc (es.map Element.octets) b = .ok (l, b') ∧
    b'.octets = Element.octetsAll es ++ b.octets

/-- One element after the other, each with a header that is recomputed right. -/
def Grabbed (past rest : List Octet) : List Element → Prop
  | [] => True
  | e :: es =>
      e.header.1.length ≤ 4 ∧ e.header.2.length ≤ 9 ∧
        bytesInTag (tagOf e.header.1) = e.header.1.length ∧
        e.body.length ≤ AsnBuf.bytesRemaining
          ⟨(e.header.1 ++ e.header.2).reverse ++ past,
            e.body ++ (Element.octetsAll es ++ rest)⟩ ∧
        AsnBuf.bytesRemaining ⟨[], e.octets⟩ = e.octets.length ∧
        Grabbed (e.octets.reverse ++ past) rest es

/-! ### Writing back -/

theorem segment_copyCard_le {len : ℕ} {os : List Octet} {card : Card}
    (h : AsnBuf.copyCard len os = .ok card) : card.segment.length ≤ os.length := by
  rw [AsnBuf.copyCard] at h
  split at h
  · obtain rfl := Except.ok.inj h
    exact Nat.zero_le _
  · split at h
    · obtain rfl := Except.ok.inj h
      exact List.length_take_le' _ _
    · cases h

theorem bEnc_cons {os : List Octet} {extList : List (List Octet)} {b b₁ b₂ : Deck} {l n : ℕ}
    (hrest : bEnc extList b = .ok (l, b₁)) (h : AsnAny.bEnc os b₁ = .ok (n, b₂)) :
    bEnc (os :: extList) b = .ok (l + n, b₂) := by
  have hrest' : bEnc extList b = pure (l, b₁) := hrest
  have h' : AsnAny.bEnc os b₁ = pure (n, b₂) := h
  rw [bEnc] at hrest' ⊢
  rw [List.foldr_cons, hrest', pure_bind]
  dsimp only
  rw [h', pure_bind]
  rfl

/-- One more element is laid on top. -/
theorem of_bEnc_cons {os : List Octet} {extList : List (List Octet)} {b b' : Deck} {l : ℕ}
    (h : bEnc (os :: extList) b = .ok (l, b')) :
    ∃ l₁ b₁ card, bEnc extList b = .ok (l₁, b₁) ∧
      AsnBuf.copyCard (AsnBuf.bytesRemaining ⟨[], os⟩) os = .ok card ∧
      b' = card :: b₁.dropEmptyCard := by
  rw [bEnc, List.foldr_cons] at h
  cases hrest : bEnc extList b with
  | error e =>
      rw [bEnc] at hrest
      rw [hrest] at h
      cases h
  | ok r =>
      rw [bEnc] at hrest
      rw [hrest] at h
      revert h
      unfold AsnAny.bEnc AsnBuf.insert
      generalize AsnBuf.bytesRemaining ⟨[], os⟩ = len
      intro h
      cases hcard : AsnBuf.copyCard len os with
      | error e =>
          rw [hcard] at h
          cases h
      | ok card =>
          rw [hcard] at h
          obtain ⟨-, rfl⟩ := Prod.mk.inj (Except.ok.inj h)
          exact ⟨r.1, r.2, card, rfl, rfl, rfl⟩

theorem empty_of_copyCard {len : ℕ} {os : List Octet} {card : Card}
    (h : AsnBuf.copyCard len os = .ok card) (hempty : card.length = 0) : card.segment = [] := by
  rw [AsnBuf.copyCard] at h
  split at h
  · obtain rfl := Except.ok.inj h
    rfl
  · split at h
    · obtain rfl := Except.ok.inj h
      exact List.length_eq_zero_iff.mp hempty
    · cases h

theorem intact_cons {card : Card} {b : Deck} (hcard : card.length = 0 → card.segment = [])
    (hb : b.Intact) : Deck.Intact (card :: b.dropEmptyCard) := by
  intro c hc
  rcases List.mem_cons.mp hc with rfl | hc
  · exact hcard
  · exact hb.dropEmptyCard c hc

/-- What is written is never more than the elements. -/
theorem le_of_bEnc {extList : List (List Octet)} {b b' : Deck} {l : ℕ} (hb : b.Intact)
    (h : bEnc extList b = .ok (l, b')) :
    b'.Intact ∧ b'.octets.length ≤ extList.flatten.length + b.octets.length := by
  induction extList generalizing b' l with
  | nil =>
      obtain ⟨-, rfl⟩ := Prod.mk.inj (Except.ok.inj h)
      exact ⟨hb, by simp⟩
  | cons os extList ih =>
      obtain ⟨l₁, b₁, card, hrest, hcard, rfl⟩ := of_bEnc_cons h
      obtain ⟨hb₁, hle⟩ := ih hrest
      refine ⟨intact_cons (empty_of_copyCard hcard) hb₁, ?_⟩
      have hsegment := segment_copyCard_le hcard
      rw [Deck.octets_cons, hb₁.octets_dropEmptyCard, List.length_append, List.flatten_cons,
        List.length_append]
      omega

/-- The elements are written as they are exactly when each is copied as it is. -/
theorem bEnc_iff {extList : List (List Octet)} (hne : ∀ os ∈ extList, os ≠ []) :
    (∀ b : Deck, b.Intact → ∃ l b', bEnc extList b = .ok (l, b') ∧
      b'.octets = extList.flatten ++ b.octets) ↔
      ∀ os ∈ extList, AsnBuf.bytesRemaining ⟨[], os⟩ = os.length := by
  constructor
  · intro h
    obtain ⟨l, b', hrun, hoctets⟩ := h [] (fun c hc => absurd hc List.not_mem_nil)
    clear h
    induction extList generalizing l b' with
    | nil => exact fun os hos => absurd hos List.not_mem_nil
    | cons os extList ih =>
        obtain ⟨l₁, b₁, card, hrest, hcard, rfl⟩ := of_bEnc_cons hrun
        obtain ⟨hb₁, hle⟩ := le_of_bEnc (fun c hc => absurd hc List.not_mem_nil) hrest
        have hsegment := segment_copyCard_le hcard
        rw [Deck.octets_cons, hb₁.octets_dropEmptyCard, List.flatten_cons, List.append_assoc]
          at hoctets
        have hlen := congrArg List.length hoctets
        simp only [List.length_append, Deck.octets_nil, List.length_nil] at hlen hle
        obtain ⟨hhead, htail⟩ := List.append_inj hoctets (by omega)
        intro os' hos'
        rcases List.mem_cons.mp hos' with rfl | hos'
        · exact (AsnAny.segment_copyCard_iff (hne os' List.mem_cons_self)).mp ⟨card, hcard, hhead⟩
        · exact ih (fun os hos => hne os (List.mem_cons_of_mem _ hos)) l₁ b₁ hrest htail os' hos'
  · intro h b hb
    suffices hall : ∃ l b', bEnc extList b = .ok (l, b') ∧ b'.Intact ∧
        b'.octets = extList.flatten ++ b.octets by
      obtain ⟨l, b', hrun, -, hoctets⟩ := hall
      exact ⟨l, b', hrun, hoctets⟩
    induction extList with
    | nil => exact ⟨0, b, rfl, hb, rfl⟩
    | cons os extList ih =>
        obtain ⟨l, b₁, hrun, hb₁, hoctets⟩ := ih
          (fun os hos => hne os (List.mem_cons_of_mem _ hos))
          (fun os hos => h os (List.mem_cons_of_mem _ hos))
        obtain ⟨card, hcard, hsegment⟩ :=
          (AsnAny.segment_copyCard_iff (hne os List.mem_cons_self)).mpr (h os List.mem_cons_self)
        refine ⟨l + AsnBuf.bytesRemaining ⟨[], os⟩, card :: b₁.dropEmptyCard, ?_,
          intact_cons (empty_of_copyCard hcard) hb₁, ?_⟩
        · exact bEnc_cons hrun (AsnAny.bEnc_of_copyCard hcard b₁)
        · rw [Deck.octets_cons, hb₁.octets_dropEmptyCard, hsegment, hoctets, List.flatten_cons,
            List.append_assoc]

/-! ### One pass -/

theorem definite_header {e : Element} (h : e.WellFormed) (hdef : e.HasDefiniteLength) :
    isIdentifier e.header.1 ∧ isLengthOf e.body.length e.header.2 := by
  cases e with
  | primitive tag len contents => exact ⟨h.1, h.2.2⟩
  | definite tag len elements => exact ⟨h.1, h.2.2.1⟩
  | indefinite tag elements => exact absurd hdef id

theorem length_octets (e : Element) :
    e.octets.length = e.header.1.length + e.header.2.length + e.body.length := by
  rw [e.octets_eq]
  simp only [List.length_append]
  omega

theorem bytesRemaining_lt (b : AsnBuf) : AsnBuf.bytesRemaining b < 2 ^ 64 := by
  have hlt (z : ℤ) : toUlong z < 2 ^ 64 := by
    rw [toUlong]
    omega
  exact hlt _

/-- An element that is copied as it is is not as long as the mark of an open length. -/
theorem body_ne_indefiniteLen {e : Element} (htag : isIdentifier e.header.1)
    (hcopy : AsnBuf.bytesRemaining ⟨[], e.octets⟩ = e.octets.length) :
    e.body.length ≠ indefiniteLen := by
  have hlt := bytesRemaining_lt ⟨[], e.octets⟩
  have hpos : 0 < e.header.1.length := List.length_pos_iff.mpr fun h => by
    rw [h] at htag
    cases htag
  rw [hcopy, length_octets] at hlt
  rw [indefiniteLen]
  omega

theorem of_atEoc {elementLen : ℕ} {b b' : AsnBuf} {eoc : Bool}
    (h : (atEoc elementLen).run b = .ok (eoc, b')) : b' = b := by
  unfold atEoc at h
  split at h
  · obtain ⟨past, rest⟩ := b
    cases rest with
    | nil => cases h
    | cons o os => exact (Prod.mk.inj (Except.ok.inj h)).2.symm
  · exact (Prod.mk.inj (Except.ok.inj h)).2.symm

/-- A pass that keeps the octets of an element took its header for what it is. -/
theorem of_readElements {elementLen fuel n : ℕ} {past ahead : List Octet} {e : Element}
    {extList : List (List Octet)} {m : ℕ} {b' : AsnBuf} (hwf : e.WellFormed)
    (hdef : e.HasDefiniteLength)
    (hcopy : AsnBuf.bytesRemaining ⟨[], e.octets⟩ = e.octets.length)
    (h : (readElements elementLen (fuel + 1) (tagOf e.header.1) (n + e.header.1.length)).run
      ⟨e.header.1.reverse ++ past, e.header.2 ++ (e.body ++ ahead)⟩ =
        .ok ((e.octets :: extList, m), b')) :
    e.header.2.length ≤ 9 ∧ bytesInTag (tagOf e.header.1) = e.header.1.length ∧
      e.body.length ≤ AsnBuf.bytesRemaining
        ⟨(e.header.1 ++ e.header.2).reverse ++ past, e.body ++ ahead⟩ ∧
      if elementLen ≤ n + e.octets.length then extList = []
      else ∃ tag k b₁, (bDecTag (n + e.octets.length)).run ⟨e.octets.reverse ++ past, ahead⟩ =
          .ok ((tag, k), b₁) ∧
        (readElements elementLen fuel tag k).run b₁ = .ok ((extList, m), b') := by
  obtain ⟨htag, hlen⟩ := definite_header hwf hdef
  have hdefinite := body_ne_indefiniteLen htag hcopy
  have hsize := length_octets e
  rw [readElements] at h
  obtain ⟨eoc, b₀, heoc, h⟩ := StreamCodec.run_bind_eq_ok h
  obtain rfl := of_atEoc heoc
  cases eoc with
  | true =>
      simp only [if_true] at h
      obtain ⟨k, b₁, -, h⟩ := StreamCodec.run_bind_eq_ok h
      cases (Prod.mk.inj (Except.ok.inj h)).1
  | false =>
      simp only [Bool.false_eq_true, if_false] at h
      obtain ⟨⟨payLoadLen, k⟩, b₁, hread, h⟩ := StreamCodec.run_bind_eq_ok h
      have hlenLen : e.header.2.length ≤ 9 := by
        by_contra hlong
        exact (bDecLen_fails _ _ hlen (Nat.lt_of_not_le hlong) _).not_ok hread
      have hexact := bDecLen_reads (e.header.1.reverse ++ past) (e.body ++ ahead) hlen hlenLen
        (n + e.header.1.length)
      rw [Cursor.Reads, hread] at hexact
      obtain ⟨hr, rfl⟩ := Prod.mk.inj (Except.ok.inj hexact)
      obtain ⟨rfl, rfl⟩ := Prod.mk.inj hr
      rw [← List.append_assoc, ← List.reverse_append] at h
      obtain ⟨⟨seg, k⟩, b₁, hgrab, h⟩ := StreamCodec.run_bind_eq_ok h
      obtain ⟨left, rfl, hseg, hleft⟩ := AsnBuf.of_grabAnyEx hgrab
      obtain ⟨rfl, hfit⟩ := hleft hdefinite
      -- the first of the octets that are kept are those of this pass
      have hhead : seg = e.octets := by
        simp only at h
        split at h
        · obtain ⟨hr, -⟩ := Prod.mk.inj (Except.ok.inj h)
          exact (List.cons.inj (Prod.mk.inj hr).1).1
        · obtain ⟨r, b₂, -, h⟩ := StreamCodec.run_bind_eq_ok h
          obtain ⟨r', b₃, -, h⟩ := StreamCodec.run_bind_eq_ok h
          obtain ⟨hr, -⟩ := Prod.mk.inj (Except.ok.inj h)
          exact (List.cons.inj (Prod.mk.inj hr).1).1
      have htagLen : bytesInTag (tagOf e.header.1) = e.header.1.length := by
        rw [hhead] at hseg
        omega
      refine ⟨hlenLen, htagLen, hfit, ?_⟩
      have hheader : bytesInTag (tagOf e.header.1) +
          (n + e.header.1.length + e.header.2.length) - (n + e.header.1.length) =
            (e.header.1 ++ e.header.2).length := by
        rw [List.length_append]
        omega
      have hrun := AsnBuf.grabAnyEx_reads past ahead hdefinite hfit
        (n + e.header.1.length + e.header.2.length)
      rw [← hheader, hgrab] at hrun
      obtain ⟨-, rfl⟩ := Prod.mk.inj (Except.ok.inj hrun)
      have hcount : n + e.header.1.length + e.header.2.length + e.body.length =
          n + e.octets.length := by omega
      have hoctets : e.header.1 ++ e.header.2 ++ e.body = e.octets := by
        rw [e.octets_eq, List.append_assoc]
      simp only [hcount, hoctets] at h
      split at h
      · next hend =>
          rw [if_pos hend]
          obtain ⟨hr, -⟩ := Prod.mk.inj (Except.ok.inj h)
          exact (List.cons.inj (Prod.mk.inj hr).1).2.symm
      · next hmore =>
          rw [if_neg hmore]
          obtain ⟨⟨tag, k⟩, b₂, htagRead, h⟩ := StreamCodec.run_bind_eq_ok h
          obtain ⟨⟨ext, k'⟩, b₃, hnext, h⟩ := StreamCodec.run_bind_eq_ok h
          obtain ⟨hr, rfl⟩ := Prod.mk.inj (Except.ok.inj h)
          obtain ⟨hcons, rfl⟩ := Prod.mk.inj hr
          obtain ⟨-, rfl⟩ := List.cons.inj hcons
          exact ⟨tag, k, b₂, htagRead, hnext⟩

/-! ### All elements -/

theorem octetsAll_cons (e : Element) (es : List Element) (rest : List Octet) :
    Element.octetsAll (e :: es) ++ rest =
      e.header.1 ++ (e.header.2 ++ (e.body ++ (Element.octetsAll es ++ rest))) := by
  rw [Element.octetsAll, e.octets_eq]
  simp only [List.append_assoc]

theorem length_octetsAll_cons (e : Element) (es : List Element) :
    (Element.octetsAll (e :: es)).length = e.octets.length + (Element.octetsAll es).length := by
  rw [Element.octetsAll, List.length_append]

theorem length_octets_pos {e : Element} (h : e.WellFormed) (hdef : e.HasDefiniteLength) :
    e.header.1.length < e.octets.length := by
  obtain ⟨-, hlen⟩ := definite_header h hdef
  have hpos : 0 < e.header.2.length := List.length_pos_iff.mpr fun h => by
    rw [h] at hlen
    cases hlen
  rw [length_octets]
  omega

/-- The tag of the next element, if there is one that was read. -/
theorem of_bDecTag {n : ℕ} {past rest : List Octet} {e : Element} {es : List Element}
    {tag : AsnTag} {k : ℕ} {b : AsnBuf} (htag : isIdentifier e.header.1)
    (h : (bDecTag n).run ⟨past, Element.octetsAll (e :: es) ++ rest⟩ = .ok ((tag, k), b)) :
    e.header.1.length ≤ 4 ∧ tag = tagOf e.header.1 ∧ k = n + e.header.1.length ∧
      b = ⟨e.header.1.reverse ++ past,
        e.header.2 ++ (e.body ++ (Element.octetsAll es ++ rest))⟩ := by
  rw [octetsAll_cons] at h
  have htagLen : e.header.1.length ≤ 4 := by
    by_contra hlong
    exact (bDecTag_fails past _ htag (Nat.lt_of_not_le hlong) n).not_ok h
  have hexact := bDecTag_reads past (e.header.2 ++ (e.body ++ (Element.octetsAll es ++ rest))) htag
    htagLen n
  rw [Cursor.Reads, h] at hexact
  obtain ⟨hr, rfl⟩ := Prod.mk.inj (Except.ok.inj hexact)
  obtain ⟨rfl, rfl⟩ := Prod.mk.inj hr
  exact ⟨htagLen, rfl, rfl, rfl⟩

/-- What has to be known of the elements: they are well formed, their lengths are given
in advance, and a copy of each is complete. -/
def Plain (es : List Element) : Prop :=
  ∀ e ∈ es, e.WellFormed ∧ e.HasDefiniteLength ∧
    AsnBuf.bytesRemaining ⟨[], e.octets⟩ = e.octets.length

theorem grabbed_of_readElements {es : List Element} {e : Element} {past rest : List Octet}
    {n fuel m : ℕ} {b' : AsnBuf} (hes : Plain (e :: es)) (htagLen : e.header.1.length ≤ 4)
    (h : (readElements (n + (Element.octetsAll (e :: es)).length) fuel (tagOf e.header.1)
      (n + e.header.1.length)).run ⟨e.header.1.reverse ++ past,
        e.header.2 ++ (e.body ++ (Element.octetsAll es ++ rest))⟩ =
          .ok (((e :: es).map Element.octets, m), b')) :
    Grabbed past rest (e :: es) := by
  induction es generalizing e past n fuel with
  | nil =>
      cases fuel with
      | zero => cases h
      | succ fuel =>
          obtain ⟨hwf, hdef, hcopy⟩ := hes e List.mem_cons_self
          obtain ⟨hlenLen, hbytes, hfit, -⟩ := of_readElements hwf hdef hcopy h
          exact ⟨htagLen, hlenLen, hbytes, hfit, hcopy, trivial⟩
  | cons e₂ es ih =>
      cases fuel with
      | zero => cases h
      | succ fuel =>
          obtain ⟨hwf, hdef, hcopy⟩ := hes e List.mem_cons_self
          have htail : Plain (e₂ :: es) := fun e he => hes e (List.mem_cons_of_mem _ he)
          obtain ⟨hwf₂, hdef₂, -⟩ := htail e₂ List.mem_cons_self
          obtain ⟨hlenLen, hbytes, hfit, hnext⟩ := of_readElements hwf hdef hcopy h
          have hpos := length_octets_pos hwf₂ hdef₂
          have hlen := length_octetsAll_cons e (e₂ :: es)
          have hlen₂ := length_octetsAll_cons e₂ es
          rw [if_neg (by omega)] at hnext
          obtain ⟨tag, k, b₁, htagRead, hnext⟩ := hnext
          obtain ⟨htagLen₂, rfl, rfl, rfl⟩ := of_bDecTag (definite_header hwf₂ hdef₂).1 htagRead
          rw [show n + (Element.octetsAll (e :: e₂ :: es)).length =
            n + e.octets.length + (Element.octetsAll (e₂ :: es)).length by omega] at hnext
          exact ⟨htagLen, hlenLen, hbytes, hfit, hcopy, ih htail htagLen₂ hnext⟩

/-- Behind an open length, the octets that end the contents are counted as three. -/
theorem count_of_readElements {es : List Element} {e : Element} {past rest : List Octet}
    {n fuel m : ℕ} {b' : AsnBuf} (hes : Plain (e :: es))
    (hsize : n + (Element.octetsAll (e :: es)).length < indefiniteLen)
    (h : (readElements indefiniteLen fuel (tagOf e.header.1) (n + e.header.1.length)).run
      ⟨e.header.1.reverse ++ past,
        e.header.2 ++ (e.body ++ (Element.octetsAll es ++ (endOfContents ++ rest)))⟩ =
          .ok (((e :: es).map Element.octets, m), b')) :
    m = n + (Element.octetsAll (e :: es)).length + 3 := by
  induction es generalizing e past n fuel with
  | nil =>
      cases fuel with
      | zero => cases h
      | succ fuel =>
          obtain ⟨hwf, hdef, hcopy⟩ := hes e List.mem_cons_self
          obtain ⟨-, -, -, hnext⟩ := of_readElements hwf hdef hcopy h
          have hlen := length_octetsAll_cons e []
          rw [Element.octetsAll, List.length_nil] at hlen
          rw [if_neg (by omega)] at hnext
          obtain ⟨tag, k, b₁, htagRead, hnext⟩ := hnext
          have hzero : (bDecTag (n + e.octets.length)).run
              ⟨e.octets.reverse ++ past, Element.octetsAll [] ++ (endOfContents ++ rest)⟩ =
                .ok ((0, n + e.octets.length + 1), ⟨0 :: (e.octets.reverse ++ past), 0 :: rest⟩) :=
            rfl
          rw [hzero] at htagRead
          obtain ⟨hr, rfl⟩ := Prod.mk.inj (Except.ok.inj htagRead)
          obtain ⟨rfl, rfl⟩ := Prod.mk.inj hr
          cases fuel with
          | zero => cases hnext
          | succ fuel =>
              have hend : (readElements indefiniteLen (fuel + 1) 0 (n + e.octets.length + 1)).run
                  ⟨0 :: (e.octets.reverse ++ past), 0 :: rest⟩ =
                    .ok (([], n + e.octets.length + 1 + 2),
                      ⟨0 :: 0 :: (e.octets.reverse ++ past), rest⟩) := rfl
              rw [hend] at hnext
              obtain ⟨hr, -⟩ := Prod.mk.inj (Except.ok.inj hnext)
              have hm := (Prod.mk.inj hr).2
              omega
  | cons e₂ es ih =>
      cases fuel with
      | zero => cases h
      | succ fuel =>
          obtain ⟨hwf, hdef, hcopy⟩ := hes e List.mem_cons_self
          have htail : Plain (e₂ :: es) := fun e he => hes e (List.mem_cons_of_mem _ he)
          obtain ⟨hwf₂, hdef₂, -⟩ := htail e₂ List.mem_cons_self
          obtain ⟨-, -, -, hnext⟩ := of_readElements hwf hdef hcopy h
          have hlen := length_octetsAll_cons e (e₂ :: es)
          rw [if_neg (by omega)] at hnext
          obtain ⟨tag, k, b₁, htagRead, hnext⟩ := hnext
          obtain ⟨-, rfl, rfl, rfl⟩ := of_bDecTag (definite_header hwf₂ hdef₂).1 htagRead
          have hm := ih htail (by omega) hnext
          omega

theorem longTagOf_ne_zero {os : List Octet} {k : ℕ} {tagId : AsnTag} (h : tagId ≠ 0) :
    longTagOf k tagId os ≠ 0 := by
  induction os generalizing k tagId with
  | nil => exact h
  | cons o os ih => exact ih fun hor => h (BitVec.or_eq_zero_iff.mp hor).1

theorem tagShift_three_ne_zero (o : Octet) (h : o ≠ 0) : tagShift o 3 ≠ 0 := by
  revert o
  decide

theorem tagOf_ne_zero {tag : List Octet} (h : isIdentifier tag) : tagOf tag ≠ 0 := by
  cases tag with
  | nil => cases h
  | cons o os =>
      refine longTagOf_ne_zero (tagShift_three_ne_zero o ?_)
      rintro rfl
      simp [isIdentifier] at h

theorem grabAnyEx_run (n : ℕ) {past ahead : List Octet} {e : Element}
    (hdefinite : e.body.length ≠ indefiniteLen)
    (hbytes : bytesInTag (tagOf e.header.1) = e.header.1.length)
    (hfit : e.body.length ≤ AsnBuf.bytesRemaining
      ⟨(e.header.1 ++ e.header.2).reverse ++ past, e.body ++ ahead⟩) :
    (AsnBuf.grabAnyEx (bytesInTag (tagOf e.header.1) +
        (n + e.header.1.length + e.header.2.length) - (n + e.header.1.length)) e.body.length
      (n + e.header.1.length + e.header.2.length)).run
        ⟨e.header.2.reverse ++ (e.header.1.reverse ++ past), e.body ++ ahead⟩ =
      pure ((e.octets, n + e.octets.length), ⟨e.octets.reverse ++ past, ahead⟩) := by
  have hrun := AsnBuf.grabAnyEx_reads past ahead hdefinite hfit
    (n + e.header.1.length + e.header.2.length)
  have hheader : (e.header.1 ++ e.header.2).length = bytesInTag (tagOf e.header.1) +
      (n + e.header.1.length + e.header.2.length) - (n + e.header.1.length) := by
    rw [List.length_append]
    omega
  have hcount : n + e.header.1.length + e.header.2.length + e.body.length =
      n + e.octets.length := by
    rw [length_octets]
    omega
  have hoctets : e.header.1 ++ e.header.2 ++ e.body = e.octets := by
    rw [e.octets_eq, List.append_assoc]
  rw [hheader, hcount, hoctets, List.reverse_append, List.append_assoc] at hrun
  exact hrun

theorem readElements_run {es : List Element} {e : Element} {past rest : List Octet} {n fuel : ℕ}
    (hes : Plain (e :: es)) (hsize : n + (Element.octetsAll (e :: es)).length ≠ indefiniteLen)
    (hfuel : es.length < fuel) (h : Grabbed past rest (e :: es)) :
    (readElements (n + (Element.octetsAll (e :: es)).length) fuel (tagOf e.header.1)
      (n + e.header.1.length)).run ⟨e.header.1.reverse ++ past,
        e.header.2 ++ (e.body ++ (Element.octetsAll es ++ rest))⟩ =
      pure (((e :: es).map Element.octets, n + (Element.octetsAll (e :: es)).length),
        ⟨(Element.octetsAll (e :: es)).reverse ++ past, rest⟩) := by
  induction es generalizing e past n fuel with
  | nil =>
      obtain ⟨fuel, rfl⟩ := Nat.exists_eq_add_of_lt hfuel
      obtain ⟨hwf, hdef, hcopy⟩ := hes e List.mem_cons_self
      obtain ⟨htag, hlen⟩ := definite_header hwf hdef
      obtain ⟨-, hlenLen, hbytes, hfit, -⟩ := h
      have hread := bDecLen_reads (e.header.1.reverse ++ past)
        (e.body ++ (Element.octetsAll [] ++ rest)) hlen hlenLen (n + e.header.1.length)
      have hgrab := grabAnyEx_run n (body_ne_indefiniteLen htag hcopy) hbytes hfit
      have hoctets : Element.octetsAll [e] = e.octets := by simp [Element.octetsAll]
      rw [hoctets] at hsize ⊢
      rw [readElements, atEoc, if_neg hsize, pure_bind, if_neg (by decide)]
      show (bDecLen _ >>= _).run ⟨_, e.header.2 ++ (e.body ++ _)⟩ = _
      rw [hread.run_bind]
      show (AsnBuf.grabAnyEx _ _ _ >>= _).run _ = _
      rw [StateT.run_bind, hgrab, pure_bind]
      dsimp only
      rw [if_pos le_rfl]
      rfl
  | cons e₂ es ih =>
      obtain ⟨fuel, rfl⟩ := Nat.exists_eq_add_of_lt hfuel
      obtain ⟨hwf, hdef, hcopy⟩ := hes e List.mem_cons_self
      obtain ⟨htag, hlen⟩ := definite_header hwf hdef
      have htail : Plain (e₂ :: es) := fun e he => hes e (List.mem_cons_of_mem _ he)
      obtain ⟨hwf₂, hdef₂, -⟩ := htail e₂ List.mem_cons_self
      obtain ⟨-, hlenLen, hbytes, hfit, -, hgrabbed⟩ := h
      have hread := bDecLen_reads (e.header.1.reverse ++ past)
        (e.body ++ (Element.octetsAll (e₂ :: es) ++ rest)) hlen hlenLen (n + e.header.1.length)
      have hgrab := grabAnyEx_run n (body_ne_indefiniteLen htag hcopy) hbytes hfit
      have hpos := length_octets_pos hwf₂ hdef₂
      have hsum := length_octetsAll_cons e (e₂ :: es)
      have hsum₂ := length_octetsAll_cons e₂ es
      have htagRead := bDecTag_reads (e.octets.reverse ++ past)
        (e₂.header.2 ++ (e₂.body ++ (Element.octetsAll es ++ rest))) (definite_header hwf₂ hdef₂).1
        hgrabbed.1 (n + e.octets.length)
      have hnext := @ih e₂ (e.octets.reverse ++ past) (n + e.octets.length)
        ((e₂ :: es).length + fuel) htail (by omega) (by simp only [List.length_cons]; omega) hgrabbed
      have hall : n + (Element.octetsAll (e :: e₂ :: es)).length =
          n + e.octets.length + (Element.octetsAll (e₂ :: es)).length := by omega
      rw [readElements, atEoc, if_neg hsize, pure_bind, if_neg (by decide)]
      show (bDecLen _ >>= _).run ⟨_, e.header.2 ++ (e.body ++ _)⟩ = _
      rw [hread.run_bind]
      show (AsnBuf.grabAnyEx _ _ _ >>= _).run _ = _
      rw [StateT.run_bind, hgrab, pure_bind]
      dsimp only
      rw [if_neg (by omega)]
      rw [octetsAll_cons, htagRead.run_bind]
      show (readElements _ _ _ _ >>= _).run _ = _
      have hoctets : Element.octetsAll (e :: e₂ :: es) =
          e.octets ++ Element.octetsAll (e₂ :: es) := by rw [Element.octetsAll]
      rw [hall, StateT.run_bind, hnext, pure_bind, hoctets, List.reverse_append, List.append_assoc]
      rfl

theorem length_le_octetsAll {es : List Element}
    (hes : ∀ e ∈ es, e.WellFormed ∧ e.HasDefiniteLength) :
    es.length ≤ (Element.octetsAll es).length := by
  induction es with
  | nil => exact Nat.zero_le _
  | cons e es ih =>
      have hhead := length_octets_pos (hes e List.mem_cons_self).1 (hes e List.mem_cons_self).2
      have htail := ih fun e he => hes e (List.mem_cons_of_mem _ he)
      rw [length_octetsAll_cons, List.length_cons]
      omega

theorem copies_of_grabbed {es : List Element} {past rest : List Octet}
    (h : Grabbed past rest es) :
    ∀ e ∈ es, AsnBuf.bytesRemaining ⟨[], e.octets⟩ = e.octets.length := by
  induction es generalizing past with
  | nil => exact fun e he => absurd he List.not_mem_nil
  | cons e es ih =>
      obtain ⟨-, -, -, -, hcopy, htail⟩ := h
      intro e' he'
      rcases List.mem_cons.mp he' with rfl | he'
      · exact hcopy
      · exact ih htail e' he'

/-! ### The whole rest of a SEQUENCE -/

theorem readFromBuffer_stop {tag : AsnTag} {elementLen n : ℕ} (h : n = elementLen ∨ tag = 0)
    (b : AsnBuf) : (readFromBuffer tag elementLen n).run b = .ok (([], n), b) := if_pos h

theorem readFromBuffer_go {tag : AsnTag} {elementLen n : ℕ} (h : ¬ (n = elementLen ∨ tag = 0))
    (b : AsnBuf) : (readFromBuffer tag elementLen n).run b =
      (readElements elementLen (b.rest.length + 1) tag n).run b := if_neg h

/-- Elements that are kept have gone through the loop. -/
theorem of_bDecRest {elementLen n m : ℕ} {past rest os : List Octet} {e : Element}
    {es : List Element} {extList : List (List Octet)} {b' : AsnBuf}
    (htag : isIdentifier e.header.1)
    (h : (bDecRest elementLen n).run ⟨past, Element.octetsAll (e :: es) ++ rest⟩ =
      .ok ((os :: extList, m), b')) :
    e.header.1.length ≤ 4 ∧ ∃ fuel, (readElements elementLen fuel (tagOf e.header.1)
      (n + e.header.1.length)).run ⟨e.header.1.reverse ++ past,
        e.header.2 ++ (e.body ++ (Element.octetsAll es ++ rest))⟩ = .ok ((os :: extList, m), b') := by
  rw [bDecRest] at h
  split at h
  · next hall =>
      rw [readFromBuffer_stop (.inl hall)] at h
      cases (Prod.mk.inj (Except.ok.inj h)).1
  · obtain ⟨⟨tag, k⟩, b₁, htagRead, h⟩ := StreamCodec.run_bind_eq_ok h
    obtain ⟨htagLen, rfl, rfl, rfl⟩ := of_bDecTag htag htagRead
    by_cases hstop : n + e.header.1.length = elementLen ∨ tagOf e.header.1 = 0
    · rw [readFromBuffer_stop hstop] at h
      cases (Prod.mk.inj (Except.ok.inj h)).1
    · rw [readFromBuffer_go hstop] at h
      exact ⟨htagLen, _, h⟩

theorem bDecRest_reads {es : List Element} {past rest : List Octet} {n : ℕ} (hes : Plain es)
    (hsize : n + (Element.octetsAll es).length ≠ indefiniteLen) (h : Grabbed past rest es) :
    Cursor.Reads past rest (bDecRest (n + (Element.octetsAll es).length) n)
      (Element.octetsAll es) (es.map Element.octets, n + (Element.octetsAll es).length) := by
  cases es with
  | nil =>
      show (bDecRest n n).run _ = _
      rw [bDecRest, if_pos rfl, readFromBuffer_stop (.inl rfl)]
      rfl
  | cons e es =>
      obtain ⟨hwf, hdef, -⟩ := hes e List.mem_cons_self
      have htag := (definite_header hwf hdef).1
      have hpos := length_octets_pos hwf hdef
      have hsum := length_octetsAll_cons e es
      have htagRead := bDecTag_reads past
        (e.header.2 ++ (e.body ++ (Element.octetsAll es ++ rest))) htag h.1 n
      have hgo : ¬ (n + e.header.1.length = n + (Element.octetsAll (e :: es)).length ∨
          tagOf e.header.1 = 0) := by
        rintro (hend | hzero)
        · omega
        · exact tagOf_ne_zero htag hzero
      rw [Cursor.Reads, octetsAll_cons, bDecRest, if_neg (by omega), htagRead.run_bind]
      refine (readFromBuffer_go hgo _).trans (readElements_run hes hsize ?_ h)
      -- every element has octets of its own
      have hmany : es.length ≤ (Element.octetsAll es).length := length_le_octetsAll
        fun e he => ⟨(hes e (List.mem_cons_of_mem _ he)).1, (hes e (List.mem_cons_of_mem _ he)).2.1⟩
      simp only [List.length_append]
      omega

/-- Exactly these elements survive: none, or, in an enclosing element of definite length,
elements whose headers are recomputed right. -/
theorem survive_iff (past rest : List Octet) {n : ℕ} (isOpen : Bool) {es : List Element}
    (hes : ∀ e ∈ es, e.WellFormed ∧ e.HasDefiniteLength)
    (hsize : n + (Element.octetsAll es).length < indefiniteLen) :
    Survive past rest n isOpen es ↔ es = [] ∨ (isOpen = false ∧ Grabbed past rest es) := by
  have hflatten : (es.map Element.octets).flatten = Element.octetsAll es := by
    clear hes hsize
    induction es with
    | nil => rfl
    | cons e es ih => rw [List.map_cons, List.flatten_cons, ih, Element.octetsAll]
  have hne : ∀ os ∈ es.map Element.octets, os ≠ [] := by
    intro os hos
    obtain ⟨e, he, rfl⟩ := List.mem_map.mp hos
    exact List.length_pos_iff.mp
      (Nat.lt_of_le_of_lt (Nat.zero_le _) (length_octets_pos (hes e he).1 (hes e he).2))
  have hwritten := bEnc_iff hne
  rw [hflatten] at hwritten
  constructor
  · intro h
    cases es with
    | nil => exact .inl rfl
    | cons e es =>
        have hcopy := hwritten.mp h.bEnc
        have hplain : Plain (e :: es) := fun e' he' =>
          ⟨(hes e' he').1, (hes e' he').2, hcopy _ (List.mem_map_of_mem he')⟩
        have htag := (definite_header (hes e List.mem_cons_self).1 (hes e List.mem_cons_self).2).1
        have hread := h.bDec
        cases isOpen with
        | false =>
            obtain ⟨htagLen, fuel, hrun⟩ := of_bDecRest htag hread
            exact .inr ⟨rfl, grabbed_of_readElements hplain htagLen hrun⟩
        | true =>
            obtain ⟨eoc, left, hends, hread⟩ := hread
            rw [Cursor.Reads, List.append_assoc, ← List.append_assoc eoc, hends] at hread
            obtain ⟨-, fuel, hrun⟩ := of_bDecRest htag hread
            have hcount := count_of_readElements hplain hsize hrun
            have hlen := congrArg List.length hends
            rw [List.length_append, endOfContents] at hlen
            simp only [List.length_cons, List.length_nil] at hlen
            omega
  · intro h
    rcases h with rfl | ⟨rfl, hgrabbed⟩
    · refine ⟨?_, hwritten.mpr fun os hos => absurd hos List.not_mem_nil⟩
      cases isOpen with
      | false => exact bDecRest_reads (fun e he => absurd he List.not_mem_nil) hsize.ne trivial
      | true =>
          have hcount : ¬ n = indefiniteLen := by
            rw [Element.octetsAll, List.length_nil] at hsize
            omega
          refine ⟨[0], [0], rfl, ?_⟩
          show (bDecRest indefiniteLen n).run ⟨past, [0] ++ ([0] ++ rest)⟩ = _
          rw [bDecRest, if_neg hcount]
          have htagRead : Cursor.Reads past ([0] ++ rest) (bDecTag n) [0] (0, n + 1) := rfl
          rw [htagRead.run_bind]
          exact readFromBuffer_stop (.inr rfl) _
    · have hcopy := copies_of_grabbed hgrabbed
      refine ⟨bDecRest_reads (fun e he => ⟨(hes e he).1, (hes e he).2, hcopy e he⟩) hsize.ne
        hgrabbed, hwritten.mpr fun os hos => ?_⟩
      obtain ⟨e, he, rfl⟩ := List.mem_map.mp hos
      exact hcopy e he

theorem survive_two :
    Survive [] [] 0 false [.primitive [0x80] [0x81, 0x01] [5], .definite [0xA1] [0x00] []] :=
  (survive_iff [] [] false (by
      intro e he
      rcases List.mem_pair.mp he with rfl | rfl
      · exact ⟨⟨by decide, by decide, by decide⟩, trivial⟩
      · exact ⟨⟨by decide, by decide, by decide, trivial⟩, trivial⟩) (by decide)).mpr
    (.inr ⟨rfl, ⟨by decide, by decide, by decide, by decide, by decide,
      by decide, by decide, by decide, by decide, by decide, trivial⟩⟩)

/-- The tag number 128 again: the octets that are kept start one octet late. -/
theorem not_survive_tag128 :
    ¬ ∀ (past rest : List Octet) (n : ℕ) (isOpen : Bool) (es : List Element),
      (∀ e ∈ es, e.WellFormed ∧ e.HasDefiniteLength) → Survive past rest n isOpen es := by
  intro h
  have hwf : ∀ e ∈ [Element.primitive [0x9F, 0x81, 0x00] [0x01] [5]],
      e.WellFormed ∧ e.HasDefiniteLength := by
    intro e he
    obtain rfl := List.mem_singleton.mp he
    exact ⟨⟨by decide, by decide, by decide⟩, trivial⟩
  have hplain : Plain [Element.primitive [0x9F, 0x81, 0x00] [0x01] [5]] := by
    intro e he
    obtain ⟨hwf, hdef⟩ := hwf e he
    obtain rfl := List.mem_singleton.mp he
    exact ⟨hwf, hdef, by decide⟩
  have hread := (h [] [] 0 false _ hwf).bDec
  obtain ⟨htagLen, fuel, hrun⟩ := of_bDecRest (by decide) hread
  obtain ⟨-, -, hbytes, -⟩ := grabbed_of_readElements hplain htagLen hrun
  exact absurd hbytes (by decide)

end AsnExtension

end Esnacc
