import Esnacc.Ber.Strings

/-!
`AsnBits::BDecContent`: what is accepted, and what the object holds afterwards. The
components of constructed contents are checked, but never stored; primitive contents
are stored in an object that keeps its old length if that is greater; and a number of
unused bits without an octet to leave them out of is not rejected.
-/

namespace Esnacc

open BitString

namespace AsnBits

/-! ### What is encoded -/

/-- The components in front of the decoder, each with its octet for the unused bits:
those of constructed contents, or the contents of the primitive form. -/
def components (tagId : AsnTag) (elmtLen : ℕ) (b : AsnBuf) (n : ℕ) : Option (List (List Octet)) :=
  if tagIsCons tagId then
    match (ConsStringDeck.fill 3 elmtLen n).run b with
    | .error _ => none
    | .ok ((deck, _), _) => some deck
  else if b.rest.length < elmtLen then none
  else some [b.rest.take elmtLen]

/-- The octets with bits in them. -/
def contentOctets (deck : List (List Octet)) : List Octet := deck.flatMap List.tail

/-- The number of unused bits in the last component. -/
def lastUnused (deck : List (List Octet)) : ℕ := ((deck.getLast?.getD []).headD 0).toNat

/-- The bits of all components, without the unused ones. -/
def encodedBits (deck : List (List Octet)) : List Bool :=
  (octetBits (contentOctets deck)).take (8 * (contentOctets deck).length - lastUnused deck)

/-- More unused bits than an octet has, or than there are bits. -/
def BadUnused : List Octet → Prop
  | [] => False
  | unused :: os => 7 < unused.toNat ∨ (unused ≠ 0 ∧ os = [])

instance : DecidablePred BadUnused
  | [] => inferInstanceAs (Decidable False)
  | unused :: os => inferInstanceAs (Decidable (7 < unused.toNat ∨ (unused ≠ 0 ∧ os = [])))

/-- The object holds the bits that are encoded if the contents are accepted, and contents
with a bad number of unused bits are not. -/
structure Decodes (x : AsnBits) (tagId : AsnTag) (elmtLen : ℕ) (b : AsnBuf) (n : ℕ) : Prop where
  accepted : ∀ r, (bDecContent x tagId elmtLen b n).2 = .ok r →
    ∃ deck, components tagId elmtLen b n = some deck ∧
      (bDecContent x tagId elmtLen b n).1.bitLen =
        8 * (contentOctets deck).length - lastUnused deck ∧
      (bDecContent x tagId elmtLen b n).1.bitLen ≤
        8 * (bDecContent x tagId elmtLen b n).1.bits.length ∧
      (bDecContent x tagId elmtLen b n).1.value = encodedBits deck
  rejected : ∀ deck, components tagId elmtLen b n = some deck → (∃ c ∈ deck, BadUnused c) →
    ∃ e, (bDecContent x tagId elmtLen b n).2 = .error (.thrown e)

/-! ### When it does -/

/-- What the primitive form is to be: rejected for its unused bits, or at least as long
as what the object holds. -/
def MeetsPrimitive (x : AsnBits) : List Octet → Prop
  | [] => True
  | unused :: os => 7 < unused.toNat ∨
      (¬ BadUnused (unused :: os) ∧ x.bitLen ≤ 8 * os.length - unused.toNat)

/-- What the constructed form is to be, by the first component in front of the last one
that does not begin with 0: where there is none, the object holds the bits already. -/
def MeetsConstructed (x : AsnBits) (deck : List (List Octet)) : Prop :=
  match deck.dropLast.dropWhile fun c => decide (c.head? = some 0) with
  | [] => (∀ c ∈ deck, ¬ BadUnused c) ∧ x.value = encodedBits deck
  | [] :: _ => ∀ c ∈ deck, ¬ BadUnused c
  | (_ :: _) :: _ => True

/-- The condition on the object and on contents that `BDecContent` begins to read. -/
def Meets (x : AsnBits) (tagId : AsnTag) (elmtLen : ℕ) (b : AsnBuf) (n : ℕ) : Prop :=
  elmtLen ≠ indefiniteLen → elmtLen ≤ AsnBuf.bytesRemaining b →
    ∀ deck, components tagId elmtLen b n = some deck →
      if tagIsCons tagId then x.MeetsConstructed deck else ∀ c ∈ deck, x.MeetsPrimitive c

theorem length_encodedBits (deck : List (List Octet)) :
    (encodedBits deck).length = 8 * (contentOctets deck).length - lastUnused deck := by
  rw [encodedBits, List.length_take, length_octetBits]
  omega

/-! ### Contents that are not read -/

theorem bDecContent_unread {x : AsnBits} {tagId : AsnTag} {elmtLen : ℕ} {b : AsnBuf} {n : ℕ}
    (h : ¬ (elmtLen ≠ indefiniteLen ∧ elmtLen ≤ AsnBuf.bytesRemaining b)) :
    bDecContent x tagId elmtLen b n =
      (x, .error (memoryException "elmtLen requests for too much data")) := by
  rw [bDecContent, AsnBuf.length_run]
  exact if_pos (by rwa [← not_le, ← not_ne_iff, ← not_and_or])

/-! ### The primitive form -/

section Primitive

variable {x : AsnBits} {tagId : AsnTag} {n : ℕ}

/-- The contents that are stored: the octets, with zeros behind them if the object was
longer. -/
theorem value_store {unused : Octet} {os : List Octet} (hunused : unused.toNat ≤ 7)
    (hempty : os = [] → unused = 0) (hlen : x.bitLen ≤ 8 * os.length - unused.toNat) :
    (x.store unused.toNat os).value = (octetBits os).take (8 * os.length - unused.toNat) := by
  have hsize : (8 * os.length - unused.toNat + 7) / 8 + 1 = os.length + 1 := by
    rcases List.eq_nil_or_concat os with rfl | ⟨front, last, rfl⟩
    · rw [hempty rfl]
      rfl
    · simp only [List.concat_eq_append, List.length_append, List.length_cons, List.length_nil]
      omega
  have hbits : (x.store unused.toNat os).bits = os ++ [0] := by
    rw [store]
    dsimp only
    rw [max_eq_right hlen, hsize, List.replicate_succ']
    exact overwrite_append [] (List.replicate os.length 0) os [0] (by simp)
  have hbitLen : (x.store unused.toNat os).bitLen = 8 * os.length - unused.toNat :=
    max_eq_right hlen
  rw [value, hbits, hbitLen, octetBits_append, List.take_append_of_le_length]
  rw [length_octetBits]
  omega

theorem components_primitive (htag : tagIsCons tagId = false) (past rest c : List Octet) :
    components tagId c.length ⟨past, c ++ rest⟩ n = some [c] := by
  rw [components, htag, if_neg Bool.false_ne_true, if_neg (by simp), List.take_left']
  rfl

theorem bDecContent_short {elmtLen : ℕ} {past ahead : List Octet} (htag : tagIsCons tagId = false)
    (hshort : ahead.length < elmtLen) (r : ℕ × AsnBuf) :
    (bDecContent x tagId elmtLen ⟨past, ahead⟩ n).2 ≠ .ok r := by
  intro hr
  simp only [bDecContent, AsnBuf.length_run, htag, Bool.false_eq_true, if_false] at hr
  split at hr
  · cases hr
  · split at hr
    · cases hr
    · cases ahead with
      | nil => cases hr
      | cons unused ahead =>
          have hbyte : AsnBuf.getByte.run ⟨past, unused :: ahead⟩ =
            .ok (unused, ⟨unused :: past, ahead⟩) := rfl
          have hseg : (AsnBuf.getSeg (elmtLen - 1)).run ⟨unused :: past, ahead⟩ =
              .error (bufferException "Read past end of data") :=
            if_neg (by rw [List.length_cons] at hshort; simp; omega)
          simp only [hbyte, hseg] at hr
          split at hr
          · cases hr
          · split at hr <;> cases hr

theorem encodedBits_singleton (unused : Octet) (os : List Octet) :
    encodedBits [unused :: os] = (octetBits os).take (8 * os.length - unused.toNat) := by
  simp [encodedBits, contentOctets, lastUnused]

/-- Contents that are accepted in the primitive form are stored. -/
theorem bDecContent_stored {past rest os : List Octet} {unused : Octet}
    (htag : tagIsCons tagId = false)
    (hread : os.length + 1 ≠ indefiniteLen ∧
      os.length + 1 ≤ AsnBuf.bytesRemaining ⟨past, unused :: os ++ rest⟩)
    (hunused : unused.toNat ≤ 7) (hempty : os = [] → unused = 0) :
    bDecContent x tagId (unused :: os).length ⟨past, unused :: os ++ rest⟩ n =
      (x.store unused.toNat os,
        .ok (n + (os.length + 1), ⟨os.reverse ++ unused :: past, rest⟩)) := by
  have hfit : ¬ (os.length + 1 = indefiniteLen ∨
      AsnBuf.bytesRemaining ⟨past, unused :: os ++ rest⟩ < os.length + 1) := by
    rwa [← not_le, ← not_ne_iff, ← not_and_or, not_not]
  have hbyte : AsnBuf.getByte.run ⟨past, unused :: os ++ rest⟩ =
      .ok (unused, ⟨unused :: past, os ++ rest⟩) :=
    AsnBuf.getByte_reads past (os ++ rest) unused
  have hone : ¬ (os.length + 1 = 1 ∧ unused ≠ 0) := fun h =>
    h.2 (hempty (List.length_eq_zero_iff.mp (Nat.succ.inj h.1)))
  have hseg : (AsnBuf.getSeg os.length).run ⟨unused :: past, os ++ rest⟩ = _ :=
    AsnBuf.getSeg_reads (unused :: past) rest os
  simp only [bDecContent, AsnBuf.length_run, List.length_cons, if_neg hfit, htag,
    Bool.false_eq_true, if_false, Nat.add_one_ne_zero, hbyte, if_neg (not_lt.mpr hunused),
    if_neg hone, Nat.add_sub_cancel, hseg]

/-- Contents that are there are decoded right if and only if they meet the condition. -/
theorem decodes_primitive_iff {past rest os : List Octet} {unused : Octet}
    (htag : tagIsCons tagId = false)
    (hread : os.length + 1 ≠ indefiniteLen ∧
      os.length + 1 ≤ AsnBuf.bytesRemaining ⟨past, unused :: os ++ rest⟩) :
    x.Decodes tagId (unused :: os).length ⟨past, unused :: os ++ rest⟩ n ↔
      x.MeetsPrimitive (unused :: os) := by
  have hfit : ¬ (os.length + 1 = indefiniteLen ∨
      AsnBuf.bytesRemaining ⟨past, unused :: os ++ rest⟩ < os.length + 1) := by
    rwa [← not_le, ← not_ne_iff, ← not_and_or, not_not]
  have hcomponents := @components_primitive tagId n htag past rest (unused :: os)
  have hbyte : AsnBuf.getByte.run ⟨past, unused :: os ++ rest⟩ =
      .ok (unused, ⟨unused :: past, os ++ rest⟩) :=
    AsnBuf.getByte_reads past (os ++ rest) unused
  by_cases hlarge : 7 < unused.toNat
  · have hresult : (bDecContent x tagId (unused :: os).length ⟨past, unused :: os ++ rest⟩ n).2 =
        .error (boundsException "Length problem - Unused bits > 7") := by
      simp only [bDecContent, AsnBuf.length_run, List.length_cons, if_neg hfit, htag,
        Bool.false_eq_true, if_false, Nat.add_one_ne_zero, hbyte, if_pos hlarge]
    refine iff_of_true ⟨fun r hr => ?_, fun deck _ _ => ⟨_, hresult⟩⟩ (.inl hlarge)
    rw [hresult] at hr
    cases hr
  · by_cases hwraps : os = [] ∧ unused ≠ 0
    · -- the number of bits wraps around instead of being refused
      have hbad : BadUnused (unused :: os) := .inr hwraps.symm
      refine iff_of_false (fun h => ?_) (by rintro (h | ⟨h, -⟩); exacts [hlarge h, h hbad])
      obtain ⟨e, he⟩ := h.rejected _ hcomponents ⟨_, List.mem_singleton_self _, hbad⟩
      have hone : os.length + 1 = 1 ∧ unused ≠ 0 := ⟨by simp [hwraps.1], hwraps.2⟩
      simp only [bDecContent, AsnBuf.length_run, List.length_cons, if_neg hfit, htag,
        Bool.false_eq_true, if_false, Nat.add_one_ne_zero, hbyte, if_neg hlarge,
        if_pos hone] at he
      cases he
    · have hempty : os = [] → unused = 0 := fun hnil => by
        by_contra hne
        exact hwraps ⟨hnil, hne⟩
      have hgood : ¬ BadUnused (unused :: os) := by
        rintro (h | ⟨hne, hnil⟩)
        exacts [hlarge h, hne (hempty hnil)]
      have hresult := @bDecContent_stored x tagId n past rest os unused htag hread
        (not_lt.mp hlarge) hempty
      constructor
      · intro h
        obtain ⟨deck, hdeck, hlen, -, -⟩ := h.accepted _ (congrArg Prod.snd hresult)
        cases hcomponents.symm.trans hdeck
        rw [hresult] at hlen
        refine .inr ⟨hgood, ?_⟩
        rw [← length_encodedBits, encodedBits_singleton, List.length_take, length_octetBits] at hlen
        simp only [store] at hlen
        omega
      · rintro (h | ⟨-, hlen⟩)
        · exact absurd h hlarge
        · have hvalue := value_store (not_lt.mp hlarge) hempty hlen
          refine ⟨fun r _ => ⟨_, hcomponents, ?_⟩, fun deck hdeck hbad => ?_⟩
          · rw [hresult]
            refine ⟨?_, (x.store unused.toNat os).allocated, ?_⟩
            · rw [← length_encodedBits, encodedBits_singleton, ← hvalue, length_value]
            · rw [encodedBits_singleton, hvalue]
          · cases hcomponents.symm.trans hdeck
            obtain ⟨c, hc, hbad⟩ := hbad
            rw [List.mem_singleton.mp hc] at hbad
            exact absurd hbad hgood

end Primitive

/-! ### The constructed form -/

section Constructed

variable {x : AsnBits} {tagId : AsnTag} {elmtLen : ℕ} {b : AsnBuf} {n : ℕ}

/-- The loop ends at the first component that does not begin with 0. -/
theorem checkComponents_eq (deck : List (List Octet)) :
    checkComponents deck = match deck.dropWhile fun c => decide (c.head? = some 0) with
      | [] => .ok ()
      | [] :: _ => .error (.undefinedBehaviour "the first octet of an empty component is read")
      | (_ :: _) :: _ => .error (except
          "Constructed BIT STRING contains a component with a unused bits value other than 0"
          .decodeError) := by
  induction deck with
  | nil => rfl
  | cons c deck ih =>
      cases c with
      | nil => rfl
      | cons unused os =>
          rw [checkComponents]
          by_cases hzero : unused = 0
          · rw [if_neg (not_not.mpr hzero), ih, List.dropWhile_cons_of_pos (by simp [hzero])]
          · rw [if_pos hzero, List.dropWhile_cons_of_neg (by simpa using hzero)]

theorem decodes_constructed_iff (htag : tagIsCons tagId = true)
    (hread : elmtLen ≠ indefiniteLen ∧ elmtLen ≤ AsnBuf.bytesRemaining b)
    {deck : List (List Octet)} {bytesDecoded : ℕ} {left : AsnBuf}
    (hfill : (ConsStringDeck.fill 3 elmtLen n).run b = .ok ((deck, bytesDecoded), left)) :
    x.Decodes tagId elmtLen b n ↔ x.MeetsConstructed deck := by
  have hcomponents : components tagId elmtLen b n = some deck := by
    rw [components, if_pos htag, hfill]
  have hresult : bDecContent x tagId elmtLen b n =
      (x, (checkComponents deck.dropLast).map fun _ => (bytesDecoded, left)) := by
    have hfit : ¬ (elmtLen = indefiniteLen ∨ AsnBuf.bytesRemaining b < elmtLen) := by
      rwa [← not_le, ← not_ne_iff, ← not_and_or, not_not]
    simp only [bDecContent, AsnBuf.length_run, if_neg hfit, htag, if_true, bDecConsBits]
    rw [StateT.run_bind, hfill]
    dsimp only [bind, Except.bind]
    cases checkComponents deck.dropLast <;> rfl
  rw [checkComponents_eq] at hresult
  rw [MeetsConstructed]
  rcases hflaw : deck.dropLast.dropWhile fun c => decide (c.head? = some 0) with
    _ | ⟨_ | ⟨unused, os⟩, others⟩
  · -- nothing is wrong with the components, and the object stays as it is
    rw [hflaw] at hresult ⊢
    constructor
    · intro h
      refine ⟨fun c hc hbad => ?_, ?_⟩
      · obtain ⟨e, he⟩ := h.rejected deck hcomponents ⟨c, hc, hbad⟩
        rw [hresult] at he
        cases he
      · obtain ⟨deck', hdeck, -, -, hvalue⟩ := h.accepted _ (congrArg Prod.snd hresult)
        cases hcomponents.symm.trans hdeck
        rwa [hresult] at hvalue
    · rintro ⟨hgood, hvalue⟩
      refine ⟨fun r _ => ⟨deck, hcomponents, ?_⟩, fun deck' hdeck hbad => ?_⟩
      · rw [hresult]
        refine ⟨?_, x.allocated, hvalue⟩
        rw [← length_encodedBits, ← hvalue, length_value]
      · cases hcomponents.symm.trans hdeck
        obtain ⟨c, hc, hbad⟩ := hbad
        exact absurd hbad (hgood c hc)
  · -- an octet is read that is not there
    rw [hflaw] at hresult ⊢
    constructor
    · intro h c hc hbad
      obtain ⟨e, he⟩ := h.rejected deck hcomponents ⟨c, hc, hbad⟩
      rw [hresult] at he
      cases he
    · intro hgood
      refine ⟨fun r hr => ?_, fun deck' hdeck hbad => ?_⟩
      · rw [hresult] at hr
        cases hr
      · cases hcomponents.symm.trans hdeck
        obtain ⟨c, hc, hbad⟩ := hbad
        exact absurd hbad (hgood c hc)
  · rw [hflaw] at hresult ⊢
    refine iff_of_true ⟨fun r hr => ?_, fun deck' _ _ => ⟨_, congrArg Prod.snd hresult⟩⟩ trivial
    rw [hresult] at hr
    cases hr

end Constructed

theorem meets_iff {x : AsnBits} {tagId : AsnTag} {elmtLen : ℕ} {b : AsnBuf} {n : ℕ}
    {deck : List (List Octet)}
    (hread : elmtLen ≠ indefiniteLen ∧ elmtLen ≤ AsnBuf.bytesRemaining b)
    (hcomponents : components tagId elmtLen b n = some deck) :
    x.Meets tagId elmtLen b n ↔
      if tagIsCons tagId then x.MeetsConstructed deck else ∀ c ∈ deck, x.MeetsPrimitive c := by
  constructor
  · exact fun h => h hread.1 hread.2 deck hcomponents
  · intro h _ _ deck' hdeck
    cases hcomponents.symm.trans hdeck
    exact h

/-- Contents without components are not accepted, and nothing is asked of them. -/
theorem decodes_of_none {x : AsnBits} {tagId : AsnTag} {elmtLen : ℕ} {b : AsnBuf} {n : ℕ}
    (hresult : ∀ r, (bDecContent x tagId elmtLen b n).2 ≠ .ok r)
    (hcomponents : components tagId elmtLen b n = none) :
    x.Decodes tagId elmtLen b n ↔ x.Meets tagId elmtLen b n := by
  refine iff_of_true ⟨fun r hr => absurd hr (hresult r), fun deck hdeck _ => ?_⟩
    fun _ _ deck hdeck => ?_
  all_goals
    rw [hcomponents] at hdeck
    cases hdeck

/-- The object holds the encoded bits, and bad numbers of unused bits are rejected, if
and only if the condition is met. -/
theorem decodes_iff_meets (x : AsnBits) (tagId : AsnTag) (elmtLen : ℕ) (b : AsnBuf) (n : ℕ) :
    x.Decodes tagId elmtLen b n ↔ x.Meets tagId elmtLen b n := by
  by_cases hread : elmtLen ≠ indefiniteLen ∧ elmtLen ≤ AsnBuf.bytesRemaining b
  · cases htag : tagIsCons tagId with
    | true =>
        cases hfill : (ConsStringDeck.fill 3 elmtLen n).run b with
        | error e =>
            have hcomponents : components tagId elmtLen b n = none := by
              rw [components, if_pos htag, hfill]
            refine decodes_of_none ?_ hcomponents
            have hfit : ¬ (elmtLen = indefiniteLen ∨ AsnBuf.bytesRemaining b < elmtLen) := by
              rwa [← not_le, ← not_ne_iff, ← not_and_or, not_not]
            simp only [bDecContent, AsnBuf.length_run, if_neg hfit, htag, if_true, bDecConsBits]
            rw [StateT.run_bind, hfill]
            exact fun r hr => by cases hr
        | ok r =>
            obtain ⟨⟨deck, bytesDecoded⟩, left⟩ := r
            rw [decodes_constructed_iff htag hread hfill]
            have hcomponents : components tagId elmtLen b n = some deck := by
              rw [components, if_pos htag, hfill]
            rw [meets_iff hread hcomponents, if_pos htag]
    | false =>
        obtain ⟨past, ahead⟩ := b
        by_cases hshort : ahead.length < elmtLen
        · have hcomponents : components tagId elmtLen ⟨past, ahead⟩ n = none := by
            rw [components, htag, if_neg Bool.false_ne_true, if_pos hshort]
          exact decodes_of_none (bDecContent_short htag hshort) hcomponents
        · -- the contents are the octets in front of the decoder
          obtain ⟨c, rest, rfl, rfl⟩ : ∃ c rest, ahead = c ++ rest ∧ elmtLen = c.length :=
            ⟨ahead.take elmtLen, ahead.drop elmtLen, by simp, by simp; omega⟩
          have hcomponents := @components_primitive tagId n htag past rest c
          cases c with
          | nil =>
              have hresult : (bDecContent x tagId 0 ⟨past, rest⟩ n).2 =
                  .error (boundsException "length problem on decoding content") := by
                simp [bDecContent, AsnBuf.length_run, indefiniteLen, htag]
              refine iff_of_true ⟨fun r hr => ?_, fun deck _ _ => ⟨_, hresult⟩⟩ ?_
              · exact absurd (hresult.symm.trans hr) (by simp)
              · rw [meets_iff hread hcomponents, htag, if_neg Bool.false_ne_true,
                  List.forall_mem_singleton]
                trivial
          | cons unused os =>
              rw [decodes_primitive_iff htag hread, meets_iff hread hcomponents, htag,
                if_neg Bool.false_ne_true, List.forall_mem_singleton]
  · have hunread := @bDecContent_unread x tagId elmtLen b n hread
    refine iff_of_true ⟨fun r hr => ?_, fun deck _ _ => ⟨_, congrArg Prod.snd hunread⟩⟩
      fun hdefinite hfit => absurd ⟨hdefinite, hfit⟩ hread
    rw [hunread] at hr
    cases hr

/-- An empty object takes no bits from a constructed BIT STRING of eight. -/
theorem not_decodes : ¬ ∀ (x : AsnBits) (tagId : AsnTag) (elmtLen : ℕ) (b : AsnBuf) (n : ℕ),
    x.Decodes tagId elmtLen b n := by
  intro h
  have hmeets := (h ⟨[], 0, false, le_rfl⟩ 0x23000000 4 ⟨[], [3, 2, 0, 255]⟩ 0).accepted
    (4, ⟨[255, 0, 2, 3], []⟩) (by decide)
  obtain ⟨deck, hdeck, hlen, -⟩ := hmeets
  cases (show components 0x23000000 4 ⟨[], [3, 2, 0, 255]⟩ 0 = some [[0, 255]] by decide).symm.trans
    hdeck
  exact absurd hlen (by decide)

end AsnBits

end Esnacc
