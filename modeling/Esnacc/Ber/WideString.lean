import Esnacc.Ber.WideChar

/-!
The contents of a BMPString or UniversalString, primitive or in segments: where they are
decoded to the characters they were encoded from.
-/

namespace Esnacc

open BitString Tlv WideAsnString

/-! ### Contents -/

/-- The segments of constructed contents, each with its length octets. -/
inductive Segments
  | nil
  | primitive (len contents : List Octet) (next : Segments)
  | definite (len : List Octet) (inner next : Segments)
  | indefinite (inner next : Segments)

/-- Where the first primitive segment stands: directly in the contents or in a segment of
indefinite length, or in a segment of definite length. -/
inductive FirstPrimitive
  | none | direct | inDefinite
  deriving DecidableEq

namespace Segments

/-- The octets of the segments. -/
def octets : Segments → List Octet
  | nil => []
  | primitive len contents next => 0x04 :: (len ++ (contents ++ next.octets))
  | definite len inner next => 0x24 :: (len ++ (inner.octets ++ next.octets))
  | indefinite inner next => 0x24 :: openLength :: (inner.octets ++ (endOfContents ++ next.octets))

/-- The octets in the primitive segments. -/
def string : Segments → List Octet
  | nil => []
  | primitive _ contents next => contents ++ next.string
  | definite _ inner next | indefinite inner next => inner.string ++ next.string

/-- The length octets say how long the segments are. -/
def WellFormed : Segments → Prop
  | nil => True
  | primitive len contents next =>
      isLengthOf contents.length len ∧ len.length ≤ 9 ∧ next.WellFormed
  | definite len inner next =>
      isLengthOf inner.octets.length len ∧ len.length ≤ 9 ∧ inner.WellFormed ∧ next.WellFormed
  | indefinite inner next => inner.WellFormed ∧ next.WellFormed

def firstPrimitive : Segments → FirstPrimitive
  | nil => .none
  | primitive _ _ _ => .direct
  | definite _ inner next =>
      if inner.firstPrimitive = .none then next.firstPrimitive else .inDefinite
  | indefinite inner next =>
      if inner.firstPrimitive = .none then next.firstPrimitive else inner.firstPrimitive

theorem octets_definite (len : List Octet) (inner next : Segments) :
    (definite len inner next).octets = (definite len inner nil).octets ++ next.octets := by
  simp [octets]

theorem octets_indefinite (inner next : Segments) :
    (indefinite inner next).octets = (indefinite inner nil).octets ++ next.octets := by
  simp [octets]

theorem string_of_none {segments : Segments} (h : segments.firstPrimitive = .none) :
    segments.string = [] := by
  induction segments with
  | nil => rfl
  | primitive len contents next => cases h
  | definite len inner next ihInner ihNext =>
      rw [firstPrimitive] at h
      split at h
      · next hinner => rw [string, ihInner hinner, ihNext h]; rfl
      · cases h
  | indefinite inner next ihInner ihNext =>
      rw [firstPrimitive] at h
      split at h
      · next hinner => rw [string, ihInner hinner, ihNext h]; rfl
      · next hinner => exact absurd h hinner

end Segments

namespace WideAsnString

variable {typeName : String}

/-- A pass over a constructed segment. -/
theorem combineLoop_constructed {past len ahead str : List Octet} {fuel elmtLen total innerLen : ℕ}
    (hmore : total < elmtLen ∨ elmtLen = indefiniteLen)
    (hlen : ∀ past rest n, Cursor.Reads past rest (bDecLen n) len (innerLen, n + len.length)) :
    (combineLoop typeName (fuel + 1) elmtLen total str).run ⟨past, 0x24 :: (len ++ ahead)⟩ =
      (do
        let r ← combineLoop typeName fuel innerLen 0 str
        combineLoop typeName fuel elmtLen (total + 1 + len.length + r.2) r.1).run
          ⟨(0x24 :: len).reverse ++ past, ahead⟩ := by
  have htag : Cursor.Reads past (len ++ ahead) (bDecTag total) [0x24] (0x24000000, total + 1) := rfl
  rw [combineLoop, if_pos hmore]
  show ((bDecTag total >>= _).run ⟨past, [0x24] ++ (len ++ ahead)⟩) = _
  rw [htag.run_bind]
  dsimp only
  rw [if_neg (fun h => absurd h.1 (by decide)), (hlen _ ahead _).run_bind]
  dsimp only
  rw [if_neg (by decide), if_pos (by decide),
    show (0x24 :: len).reverse ++ past = len.reverse ++ ([0x24].reverse ++ past) by simp]

theorem combineLoop_done {fuel elmtLen total : ℕ} {str : List Octet} {b : AsnBuf}
    (hdefinite : elmtLen ≠ indefiniteLen) (hdone : elmtLen ≤ total) :
    (combineLoop typeName (fuel + 1) elmtLen total str).run b = .ok ((str, total), b) := by
  rw [combineLoop, if_neg (not_or.mpr ⟨Nat.not_lt.mpr hdone, hdefinite⟩)]
  rfl

/-- The end of contents of indefinite length. -/
theorem combineLoop_end {fuel total : ℕ} {str past ahead : List Octet} :
    (combineLoop typeName (fuel + 1) indefiniteLen total str).run
        ⟨past, endOfContents ++ ahead⟩ =
      .ok ((str, total + 2), ⟨endOfContents.reverse ++ past, ahead⟩) := by
  have htag : Cursor.Reads past ([0] ++ ahead) (bDecTag total) [0] (0, total + 1) := rfl
  rw [combineLoop, if_pos (.inr rfl)]
  show ((bDecTag total >>= _).run ⟨past, [0] ++ ([0] ++ ahead)⟩) = _
  rw [htag.run_bind]
  dsimp only
  rw [if_pos ⟨rfl, rfl⟩, (AsnBuf.getByte_reads _ ahead 0).run_bind]
  rfl

/-- A pass over a primitive segment fetches as many octets as the contents have. -/
theorem combineLoop_primitive {past len ahead str : List Octet} {fuel elmtLen total innerLen : ℕ}
    (hmore : total < elmtLen ∨ elmtLen = indefiniteLen)
    (hlen : ∀ past rest n, Cursor.Reads past rest (bDecLen n) len (innerLen, n + len.length)) :
    (combineLoop typeName (fuel + 1) elmtLen total str).run ⟨past, 0x04 :: (len ++ ahead)⟩ =
      (if 2 ^ 63 ≤ elmtLen then throw (except "std::bad_array_new_length" .defaultErrorCode)
      else do
        let seg ← AsnBuf.getSeg elmtLen
        combineLoop typeName fuel elmtLen (total + 1 + len.length + elmtLen) (str ++ seg)).run
          ⟨(0x04 :: len).reverse ++ past, ahead⟩ := by
  have htag : Cursor.Reads past (len ++ ahead) (bDecTag total) [0x04] (0x04000000, total + 1) := rfl
  rw [combineLoop, if_pos hmore]
  show ((bDecTag total >>= _).run ⟨past, [0x04] ++ (len ++ ahead)⟩) = _
  rw [htag.run_bind]
  dsimp only
  rw [if_neg (fun h => absurd h.1 (by decide)), (hlen _ ahead _).run_bind]
  dsimp only
  rw [if_pos (by decide),
    show (0x04 :: len).reverse ++ past = len.reverse ++ ([0x04].reverse ++ past) by simp]

/-- Segments without a primitive one are walked through. -/
theorem combineLoop_none {segments : Segments} (hnone : segments.firstPrimitive = .none)
    (hwf : segments.WellFormed) (hsmall : segments.octets.length < indefiniteLen)
    {fuel elmtLen total : ℕ} (hfuel : segments.octets.length < fuel)
    (hroom : total + segments.octets.length ≤ elmtLen ∨ elmtLen = indefiniteLen)
    (past ahead str : List Octet) :
    ∃ fuel', fuel ≤ fuel' + segments.octets.length ∧
      (combineLoop typeName fuel elmtLen total str).run ⟨past, segments.octets ++ ahead⟩ =
        (combineLoop typeName fuel' elmtLen (total + segments.octets.length) str).run
          ⟨segments.octets.reverse ++ past, ahead⟩ := by
  induction segments generalizing fuel elmtLen total past ahead with
  | nil => exact ⟨fuel, le_rfl, rfl⟩
  | primitive len contents next => cases hnone
  | definite len inner next ihInner ihNext =>
      obtain ⟨hlen, hshort, hinnerWf, hnextWf⟩ := hwf
      rw [Segments.firstPrimitive] at hnone
      split at hnone
      · next hinnerNone =>
          -- the inner loop ends as soon as it has counted the octets of the segment
          simp only [Segments.octets, List.length_cons, List.length_append] at hsmall hfuel hroom ⊢
          obtain ⟨fuel, rfl⟩ : ∃ f, fuel = f + 1 := ⟨fuel - 1, by omega⟩
          obtain ⟨fuel₁, hfuel₁, hinner⟩ := @ihInner hinnerNone hinnerWf (by omega) fuel
            inner.octets.length 0 (by omega) (.inl (by omega)) ((0x24 :: len).reverse ++ past)
            (next.octets ++ ahead)
          obtain ⟨fuel₁, rfl⟩ : ∃ f, fuel₁ = f + 1 := ⟨fuel₁ - 1, by omega⟩
          rw [combineLoop_done (by omega) (by omega)] at hinner
          obtain ⟨fuel₂, hfuel₂, hnext⟩ := @ihNext hnone hnextWf (by omega) fuel elmtLen
            (total + 1 + len.length + (0 + inner.octets.length)) (by omega)
            (hroom.imp (fun h => by omega) id)
            (inner.octets.reverse ++ ((0x24 :: len).reverse ++ past)) ahead
          refine ⟨fuel₂, by omega, ?_⟩
          rw [List.cons_append, List.append_assoc, List.append_assoc,
            combineLoop_constructed (hroom.imp (fun h => by omega) id)
              (fun past rest n => bDecLen_reads past rest hlen hshort n),
            StateT.run_bind, hinner]
          refine hnext.trans ?_
          congr 2
          · omega
          · simp
      · cases hnone
  | indefinite inner next ihInner ihNext =>
      obtain ⟨hinnerWf, hnextWf⟩ := hwf
      rw [Segments.firstPrimitive] at hnone
      split at hnone
      · next hinnerNone =>
          -- and one of indefinite length at the end-of-contents octets
          have heoc : endOfContents.length = 2 := rfl
          simp only [Segments.octets, List.length_cons, List.length_append, heoc]
            at hsmall hfuel hroom ⊢
          obtain ⟨fuel, rfl⟩ : ∃ f, fuel = f + 1 := ⟨fuel - 1, by omega⟩
          obtain ⟨fuel₁, hfuel₁, hinner⟩ := @ihInner hinnerNone hinnerWf (by omega) fuel
            indefiniteLen 0 (by omega) (.inr rfl) ((0x24 :: [openLength]).reverse ++ past)
            (endOfContents ++ (next.octets ++ ahead))
          obtain ⟨fuel₁, rfl⟩ : ∃ f, fuel₁ = f + 1 := ⟨fuel₁ - 1, by omega⟩
          rw [combineLoop_end] at hinner
          obtain ⟨fuel₂, hfuel₂, hnext⟩ := @ihNext hnone hnextWf (by omega) fuel elmtLen
            (total + 1 + 1 + (0 + inner.octets.length + 2)) (by omega)
            (hroom.imp (fun h => by omega) id)
            (endOfContents.reverse ++ (inner.octets.reverse ++
              ((0x24 :: [openLength]).reverse ++ past))) ahead
          refine ⟨fuel₂, by omega, ?_⟩
          have hopen : 0x24 :: openLength :: (inner.octets ++ (endOfContents ++ next.octets)) ++
              ahead = 0x24 :: ([openLength] ++ (inner.octets ++ (endOfContents ++
                (next.octets ++ ahead)))) := by simp
          rw [hopen, combineLoop_constructed (hroom.imp (fun h => by omega) id)
              (fun past rest n => bDecLen_openLength past rest n),
            StateT.run_bind, hinner]
          refine hnext.trans ?_
          congr 2
          · omega
          · simp
      · next hne => exact absurd hnone hne

/-- With a primitive segment directly in the contents, more is consumed than the contents, and
nothing can be fetched if their length is indefinite. -/
theorem combineLoop_direct {segments : Segments} (hdirect : segments.firstPrimitive = .direct)
    (hwf : segments.WellFormed) (hsmall : segments.octets.length < indefiniteLen)
    {fuel elmtLen total : ℕ} (hfuel : segments.octets.length < fuel)
    (hroom : total + segments.octets.length ≤ elmtLen ∨ elmtLen = indefiniteLen)
    {past ahead str : List Octet} {r : List Octet × ℕ} {b : AsnBuf}
    (h : (combineLoop typeName fuel elmtLen total str).run ⟨past, segments.octets ++ ahead⟩ =
      .ok (r, b)) : elmtLen ≠ indefiniteLen ∧ elmtLen < r.2 := by
  induction segments generalizing fuel elmtLen total past ahead str r b with
  | nil => cases hdirect
  | primitive len contents next =>
      obtain ⟨hlen, hshort, -⟩ := hwf
      simp only [Segments.octets, List.length_cons, List.length_append] at hsmall hfuel hroom h
      obtain ⟨fuel, rfl⟩ : ∃ f, fuel = f + 2 := ⟨fuel - 2, by omega⟩
      rw [List.cons_append, List.append_assoc,
        combineLoop_primitive (hroom.imp (fun h => by omega) id)
          (fun past rest n => bDecLen_reads past rest hlen hshort n)] at h
      split at h
      · cases h
      · next hsize =>
          -- an array of the indefinite length cannot be allocated
          have hdefinite : elmtLen ≠ indefiniteLen := by
            rintro rfl
            exact hsize (by decide)
          obtain ⟨seg, b', -, h⟩ := StreamCodec.run_bind_eq_ok h
          rw [combineLoop_done hdefinite (by omega)] at h
          cases h
          exact ⟨hdefinite, by dsimp only; omega⟩
  | definite len inner next ihInner ihNext =>
      obtain ⟨hlen, hshort, hinnerWf, hnextWf⟩ := hwf
      rw [Segments.firstPrimitive] at hdirect
      split at hdirect
      · next hinnerNone =>
          have hnone : (Segments.definite len inner .nil).firstPrimitive = .none := by
            rw [Segments.firstPrimitive, if_pos hinnerNone]
            rfl
          rw [Segments.octets_definite, List.length_append] at hsmall hfuel hroom
          rw [Segments.octets_definite, List.append_assoc] at h
          obtain ⟨fuel', hfuel', hwalk⟩ := @combineLoop_none typeName (.definite len inner .nil)
            hnone ⟨hlen, hshort, hinnerWf, trivial⟩ (by omega) fuel elmtLen total (by omega)
            (hroom.imp (fun h => by omega) id) past (next.octets ++ ahead) str
          rw [hwalk] at h
          exact ihNext hdirect hnextWf (by omega) (by omega)
            (hroom.imp (fun h => by omega) id) h
      · cases hdirect
  | indefinite inner next ihInner ihNext =>
      obtain ⟨hinnerWf, hnextWf⟩ := hwf
      rw [Segments.firstPrimitive] at hdirect
      split at hdirect
      · next hinnerNone =>
          have hnone : (Segments.indefinite inner .nil).firstPrimitive = .none := by
            rw [Segments.firstPrimitive, if_pos hinnerNone]
            rfl
          rw [Segments.octets_indefinite, List.length_append] at hsmall hfuel hroom
          rw [Segments.octets_indefinite, List.append_assoc] at h
          obtain ⟨fuel', hfuel', hwalk⟩ := @combineLoop_none typeName (.indefinite inner .nil) hnone
            ⟨hinnerWf, trivial⟩ (by omega) fuel elmtLen total (by omega)
            (hroom.imp (fun h => by omega) id) past (next.octets ++ ahead) str
          rw [hwalk] at h
          exact ihNext hdirect hnextWf (by omega) (by omega)
            (hroom.imp (fun h => by omega) id) h
      · -- the contents of the segment have indefinite length
        simp only [Segments.octets, List.length_cons, List.length_append] at hsmall hfuel hroom
        have hopen : (Segments.indefinite inner next).octets ++ ahead =
            0x24 :: ([openLength] ++
              (inner.octets ++ (endOfContents ++ (next.octets ++ ahead)))) := by
          simp [Segments.octets]
        obtain ⟨fuel, rfl⟩ : ∃ f, fuel = f + 1 := ⟨fuel - 1, by omega⟩
        rw [hopen, combineLoop_constructed (hroom.imp (fun h => by omega) id)
          (fun past rest n => bDecLen_openLength past rest n)] at h
        obtain ⟨r', b', hinner, -⟩ := StreamCodec.run_bind_eq_ok h
        exact absurd rfl (ihInner hdirect hinnerWf (by omega) (by omega) (.inr rfl) hinner).1

theorem encodedString_run (tagId : AsnTag) (elmtLen n : ℕ) (b : AsnBuf) :
    (encodedString typeName tagId elmtLen n).run b =
      if elmtLen = indefiniteLen ∨ AsnBuf.bytesRemaining b < elmtLen then
        .error (memoryException "elmtLen requests for too much data")
      else if tagIsCons tagId then
        (combineConsString typeName elmtLen >>= fun r => pure (r.1, n + r.2)).run b
      else (AsnBuf.getSeg elmtLen >>= fun seg => pure (seg, n + elmtLen)).run b := by
  rw [encodedString, AsnBuf.run_length_bind]
  split
  · rfl
  · split <;> rfl

end WideAsnString

/-- The contents of a string: its octets, or segments of a definite or indefinite length. -/
inductive Contents
  | primitive (contents : List Octet)
  | definite (segments : Segments)
  | indefinite (segments : Segments)

namespace Contents

/-- The octets of the contents, with the end-of-contents octets of an indefinite length. -/
def octets : Contents → List Octet
  | primitive contents => contents
  | definite segments => segments.octets
  | indefinite segments => segments.octets ++ endOfContents

/-- The octets of the string. -/
def string : Contents → List Octet
  | primitive contents => contents
  | definite segments | indefinite segments => segments.string

def isCons : Contents → Bool
  | primitive _ => false
  | definite _ | indefinite _ => true

/-- The length that stands in front of the contents. -/
def elmtLen : Contents → ℕ
  | primitive contents => contents.length
  | definite segments => segments.octets.length
  | indefinite _ => indefiniteLen

/-- The lengths are those of the octets, and fit into an `AsnLen`. -/
def WellFormed (c : Contents) : Prop :=
  c.elmtLen < 2 ^ 64 ∧
    match c with
    | primitive _ => True
    | definite segments | indefinite segments => segments.WellFormed

/-- Where the first primitive segment stands, if there are segments. -/
def firstPrimitive : Contents → FirstPrimitive
  | primitive _ => .none
  | definite segments | indefinite segments => segments.firstPrimitive

variable (T : WideType) (wstr : List WChar) (past rest : List Octet)

/-- The contents are decoded to the characters, and what follows them is left. -/
def RoundTrips (c : Contents) : Prop :=
  ∀ (tagId : AsnTag) (bytesDecoded : ℕ), tagIsCons tagId = c.isCons →
    (T.bDecContent tagId c.elmtLen bytesDecoded).run ⟨past, c.octets ++ rest⟩ =
      .ok ((wstr, bytesDecoded + c.octets.length), ⟨c.octets.reverse ++ past, rest⟩)

/-- The length is definite and seen to be there, no sign is extended into another octet, and
no segment is primitive. -/
def Meets (c : Contents) : Prop :=
  c.elmtLen ≠ indefiniteLen ∧
    c.elmtLen ≤ AsnBuf.bytesRemaining ⟨past, c.octets ++ rest⟩ ∧
      match c with
      | primitive _ => ∀ wc ∈ wstr, T.Survives wc
      | definite segments | indefinite segments => segments.firstPrimitive = .none

end Contents

namespace WideType

variable {T : WideType} {wstr : List WChar}

theorem bDecContent_eq (T : WideType) : ∃ typeName what,
    T.bDecContent = decodeContent typeName what T.width T.decodeLoop := by
  cases T with
  | bmp => exact ⟨_, _, rfl⟩
  | universal => exact ⟨_, _, rfl⟩

/-- Decoding succeeds with what is made of the octets of the string. -/
theorem decodeContent_run {typeName what : String} {tagId : AsnTag} {elmtLen n n' : ℕ}
    {str : List Octet} {b b' : AsnBuf} (hmod : str.length % T.width = 0)
    (h : (encodedString typeName tagId elmtLen n).run b = .ok ((str, n'), b')) :
    (decodeContent typeName what T.width T.decodeLoop tagId elmtLen n).run b =
      .ok ((T.decodeLoop str, n'), b') := by
  rw [decodeContent, StateT.run_bind, h]
  show (ite (str.length % T.width ≠ 0) _ _ : BerM _).run b' = _
  rw [if_neg (not_not.mpr hmod)]
  rfl

theorem of_decodeContent {typeName what : String} {tagId : AsnTag} {elmtLen n n' : ℕ}
    {b b' : AsnBuf}
    (h : (decodeContent typeName what T.width T.decodeLoop tagId elmtLen n).run b =
      .ok ((wstr, n'), b')) :
    ∃ str, (encodedString typeName tagId elmtLen n).run b = .ok ((str, n'), b') ∧
      T.decodeLoop str = wstr := by
  obtain ⟨⟨str, n''⟩, b'', hstr, h⟩ := StreamCodec.run_bind_eq_ok h
  dsimp only at h
  split at h
  · cases h
  · cases h
    exact ⟨str, hstr, rfl⟩

theorem octets_mod (T : WideType) (wstr : List WChar) : (T.octets wstr).length % T.width = 0 := by
  rw [length_octets, Nat.mul_mod_right]

theorem eq_nil_of_octets (h : T.octets wstr = []) : wstr = [] := by
  have hlength := length_octets T wstr
  rw [h] at hlength
  cases T <;> exact List.length_eq_zero_iff.mp (by simpa [width] using hlength.symm)

end WideType

namespace Contents

variable {T : WideType} {wstr : List WChar} {past rest : List Octet}

/-- What `CombineConsString` does with segments none of which is primitive. -/
theorem combineConsString_none {typeName : String} {segments : Segments}
    (hnone : segments.firstPrimitive = .none) (hwf : segments.WellFormed)
    (hsmall : segments.octets.length < indefiniteLen) (past rest : List Octet) :
    (combineConsString typeName segments.octets.length).run ⟨past, segments.octets ++ rest⟩ =
      .ok (([], segments.octets.length), ⟨segments.octets.reverse ++ past, rest⟩) := by
  show (combineLoop typeName ((segments.octets ++ rest).length + 1) segments.octets.length 0 []).run
    ⟨past, segments.octets ++ rest⟩ = _
  rw [List.length_append]
  obtain ⟨fuel, hfuel, hwalk⟩ := @combineLoop_none typeName segments hnone hwf hsmall
    (segments.octets.length + rest.length + 1) segments.octets.length 0 (by omega)
    (.inl (by omega)) past rest []
  obtain ⟨fuel, rfl⟩ : ∃ f, fuel = f + 1 := ⟨fuel - 1, by omega⟩
  rw [hwalk, combineLoop_done (by omega) (by omega), Nat.zero_add]

/-- Under the condition the octets of the string are found, and nothing behind the contents
is touched. -/
theorem encodedString_of_meets {typeName : String} {c : Contents} (hwf : c.WellFormed)
    (hmeets : c.Meets T wstr past rest) {tagId : AsnTag} (htag : tagIsCons tagId = c.isCons)
    (n : ℕ) :
    (encodedString typeName tagId c.elmtLen n).run ⟨past, c.octets ++ rest⟩ =
      .ok ((c.string, n + c.octets.length), ⟨c.octets.reverse ++ past, rest⟩) := by
  obtain ⟨hdefinite, hfit, hrest⟩ := hmeets
  obtain ⟨hsmall, hsegments⟩ := hwf
  rw [encodedString_run, if_neg (not_or.mpr ⟨hdefinite, Nat.not_lt.mpr hfit⟩), htag]
  cases c with
  | primitive contents =>
      simp only [isCons, elmtLen, octets, string, Bool.false_eq_true, if_false]
      exact (AsnBuf.getSeg_reads past rest contents).run_bind
  | definite segments =>
      have hlt : segments.octets.length < indefiniteLen :=
        lt_of_le_of_ne (Nat.le_of_lt_succ hsmall) hdefinite
      simp only [isCons, elmtLen, octets, string, if_true]
      rw [StateT.run_bind, combineConsString_none hrest hsegments hlt,
        Segments.string_of_none hrest]
      rfl
  | indefinite segments => exact absurd rfl hdefinite

theorem roundTrips_of_meets {c : Contents} (hwf : c.WellFormed) (hstring : c.string = T.octets wstr)
    (hrep : T = .bmp → ∀ wc ∈ wstr, wc.sshiftRight 16 = 0) (hmeets : c.Meets T wstr past rest) :
    c.RoundTrips T wstr past rest := by
  intro tagId n htag
  obtain ⟨typeName, what, hdec⟩ := WideType.bDecContent_eq T
  have hstr : (encodedString typeName tagId c.elmtLen n).run ⟨past, c.octets ++ rest⟩ =
      .ok ((c.string, n + c.octets.length), ⟨c.octets.reverse ++ past, rest⟩) :=
    encodedString_of_meets hwf hmeets htag n
  rw [hstring] at hstr
  rw [hdec, WideType.decodeContent_run (WideType.octets_mod T wstr) hstr]
  have hsurvive : ∀ wc ∈ wstr, T.Survives wc := by
    obtain ⟨hdefinite, -, hrest⟩ := hmeets
    cases c with
    | primitive contents => exact hrest
    | definite segments =>
        have hnil : wstr = [] :=
          WideType.eq_nil_of_octets (hstring.symm.trans (Segments.string_of_none hrest))
        rw [hnil]
        exact fun _ hwc => absurd hwc List.not_mem_nil
    | indefinite segments => exact absurd rfl hdefinite
  rw [(WideType.decodeLoop_octets_iff T hrep).mpr hsurvive]

theorem meets_of_roundTrips {c : Contents} (hwf : c.WellFormed)
    (hstring : c.string = T.octets wstr) (hrep : T = .bmp → ∀ wc ∈ wstr, wc.sshiftRight 16 = 0)
    (hfirst : c.firstPrimitive ≠ .inDefinite) (h : c.RoundTrips T wstr past rest) :
    c.Meets T wstr past rest := by
  obtain ⟨typeName, what, hdec⟩ := WideType.bDecContent_eq T
  obtain ⟨tagId, htag⟩ : ∃ tagId : AsnTag, tagIsCons tagId = c.isCons := by
    cases c with
    | primitive contents => exact ⟨0, show tagIsCons 0 = false by decide⟩
    | definite segments | indefinite segments =>
        exact ⟨consBit, show tagIsCons consBit = true by decide⟩
  have hrun := h tagId 0 htag
  rw [hdec] at hrun
  obtain ⟨str, hstr, hdecoded⟩ := WideType.of_decodeContent hrun
  rw [encodedString_run] at hstr
  split at hstr
  · cases hstr
  · next hguard =>
      obtain ⟨hdefinite, hfit⟩ := not_or.mp hguard
      refine ⟨hdefinite, Nat.not_lt.mp hfit, ?_⟩
      rw [htag] at hstr
      cases c with
      | primitive contents =>
          simp only [isCons, elmtLen, octets, Bool.false_eq_true, if_false] at hstr
          rw [(AsnBuf.getSeg_reads past rest contents).run_bind] at hstr
          have heq : contents = str := (Prod.mk.inj (Prod.mk.inj (Except.ok.inj hstr)).1).1
          rw [← heq, show contents = T.octets wstr from hstring] at hdecoded
          exact (WideType.decodeLoop_octets_iff T hrep).mp hdecoded
      | definite segments =>
          -- what is counted must be the length of the contents, and a primitive segment that
          -- is met first makes it more
          simp only [isCons, elmtLen, octets, if_true] at hstr
          obtain ⟨r, b', hcombine, hpure⟩ := StreamCodec.run_bind_eq_ok hstr
          have htotal : 0 + r.2 = 0 + segments.octets.length :=
            (Prod.mk.inj (Prod.mk.inj (Except.ok.inj hpure)).1).2
          cases hcase : segments.firstPrimitive with
          | none => exact hcase
          | inDefinite => exact absurd hcase hfirst
          | direct =>
              have hlt : segments.octets.length < indefiniteLen :=
                lt_of_le_of_ne (Nat.le_of_lt_succ hwf.1) hdefinite
              have hfuel : segments.octets.length < (segments.octets ++ rest).length + 1 := by
                rw [List.length_append]
                omega
              have hmore := (combineLoop_direct hcase hwf.2 hlt hfuel (.inl (by omega)) hcombine).2
              omega
      | indefinite segments => exact absurd rfl hdefinite

end Contents

/-- Contents that hold what is encoded for the characters are decoded to them if the
condition is met; and they are not if it fails, unless the first primitive segment stands in
a segment of definite length. -/
theorem WideType.wideString_roundTrip {T : WideType} {wstr : List WChar} {len : ℕ} {b b' : Deck}
    {c : Contents} (henc : T.bEncContent wstr b = .ok (len, b'))
    (hstring : b'.octets = c.string ++ b.octets) (hwf : c.WellFormed) (past rest : List Octet) :
    (c.Meets T wstr past rest → c.RoundTrips T wstr past rest) ∧
      (c.firstPrimitive ≠ .inDefinite →
        (c.RoundTrips T wstr past rest ↔ c.Meets T wstr past rest)) := by
  obtain ⟨hrep, hoctets⟩ := bEncContent_eq_ok henc
  have hoctets' : c.string = T.octets wstr :=
    List.append_cancel_right (hstring.symm.trans hoctets)
  refine ⟨Contents.roundTrips_of_meets hwf hoctets' hrep, fun hfirst => ⟨?_, ?_⟩⟩
  · exact Contents.meets_of_roundTrips hwf hoctets' hrep hfirst
  · exact Contents.roundTrips_of_meets hwf hoctets' hrep

/-- The ideograph 4E2D as the contents of a BMPString. -/
theorem WideType.wideString_roundTrip_ideograph :
    (Contents.primitive [0x4E, 0x2D]).RoundTrips .bmp [0x4E2D] [2, 30] [] := by
  have hmeets : (Contents.primitive [0x4E, 0x2D]).Meets .bmp [0x4E2D] [2, 30] [] := by
    refine ⟨by decide, by decide, ?_⟩
    intro wc hwc
    rw [List.mem_singleton.mp hwc]
    exact ⟨by decide, by decide⟩
  exact (WideType.wideString_roundTrip (b := []) rfl (by decide) ⟨by decide, trivial⟩ _ _).1 hmeets

/-- The octets 00 80 of a BMPString are decoded to FFFFFF80. -/
theorem WideType.not_wideString_roundTrip :
    ¬ ∀ (T : WideType) (wstr : List WChar) (len : ℕ) (b b' : Deck) (c : Contents)
      (past rest : List Octet), T.bEncContent wstr b = .ok (len, b') →
        b'.octets = c.string ++ b.octets → c.WellFormed → c.RoundTrips T wstr past rest := by
  intro h
  have hrun := h .bmp [0x0080] _ [] _ (.primitive [0x00, 0x80]) [2, 30] [] rfl (by decide)
    ⟨by decide, trivial⟩ 0 0 (by decide)
  exact absurd hrun (by decide)

end Esnacc
