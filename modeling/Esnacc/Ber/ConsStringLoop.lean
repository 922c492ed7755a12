import Esnacc.Ber.CharString

/-!
What `ConsStringDeck::Fill` accepts. A constructed segment of definite length is left as soon
as enough octets have been counted, so that the last segment in it can reach beyond it; only
another constructed segment of definite length is checked against what is left. And the
count of a segment goes through an `int` on the way to the one that contains it.
-/

namespace Esnacc

open BitString Tlv

/-! ### Identifier and length octets -/

/-- The octets denote a length to `BDecLen`, whatever stands around them. -/
def ReadsLen (len : List Octet) (n : ℕ) : Prop :=
  ∀ past rest k, Cursor.Reads past rest (bDecLen k) len (n, k + len.length)

theorem ReadsLen.pos {len : List Octet} {n : ℕ} (h : ReadsLen len n) : 0 < len.length := by
  refine List.length_pos_of_ne_nil ?_
  rintro rfl
  have hrun := h [] [] 0
  cases hrun

theorem ReadsLen.unique {len len' x y : List Octet} {n n' : ℕ} (h : ReadsLen len n)
    (h' : ReadsLen len' n') (hoctets : len ++ x = len' ++ y) : len = len' ∧ n = n' ∧ x = y := by
  have hrun := h [] x 0
  rw [Cursor.Reads, hoctets, show (bDecLen 0).run ⟨[], len' ++ y⟩ = _ from h' [] y 0] at hrun
  have hpair := Prod.mk.inj (Except.ok.inj hrun)
  have hpast := congrArg Cursor.past hpair.2
  simp only [List.append_nil, List.reverse_inj] at hpast
  exact ⟨hpast.symm, (Prod.mk.inj hpair.1).1.symm, (congrArg Cursor.rest hpair.2).symm⟩

/-- The call throws. -/
def Throws {α : Type} (r : Except Fault α) : Prop := ∃ e, r = .error (.thrown e)

theorem Throws.bind {α β : Type} {m : BerM α} {f : α → BerM β} {b : AsnBuf}
    (h : Throws (m.run b)) : Throws ((m >>= f).run b) := by
  obtain ⟨e, he⟩ := h
  refine ⟨e, ?_⟩
  rw [StateT.run_bind, he]
  rfl

theorem tagShift_top (o : Octet) : tagShift o 3 >>> 24 = o.setWidth 32 := by
  simp only [tagShift]
  ext i hi
  interval_cases i <;> simp

/-- The octets that follow leave the first octet of a tag as it is. -/
theorem tagShift_rest (o : Octet) {k : ℕ} (h : k ≤ 2) : tagShift o k >>> 24 = 0 := by
  simp only [tagShift]
  interval_cases k <;> ext i hi <;> interval_cases i <;> simp

theorem bDecLongTag_cases {k : ℕ} (hk : k ≤ 2) (tagId : AsnTag) (n : ℕ) (b : AsnBuf) :
    (∃ tag n' b', (bDecLongTag k tagId n).run b = .ok ((tag, n'), b') ∧
      tag >>> 24 = tagId >>> 24) ∨ Throws ((bDecLongTag k tagId n).run b) := by
  induction k generalizing tagId n b with
  | zero =>
      obtain ⟨past, ahead⟩ := b
      cases ahead with
      | nil => exact .inr ⟨_, rfl⟩
      | cons o ahead =>
          rw [bDecLongTag, show o :: ahead = [o] ++ ahead from rfl,
            (AsnBuf.getByte_reads past ahead o).run_bind]
          split
          · refine .inl ⟨_, _, _, rfl, ?_⟩
            rw [BitVec.ushiftRight_or_distrib, tagShift_rest o hk]
            exact BitVec.or_zero
          · exact .inr ⟨_, rfl⟩
  | succ k ih =>
      obtain ⟨past, ahead⟩ := b
      cases ahead with
      | nil => exact .inr ⟨_, rfl⟩
      | cons o ahead =>
          have htop : (tagId ||| tagShift o (k + 1)) >>> 24 = tagId >>> 24 := by
            rw [BitVec.ushiftRight_or_distrib, tagShift_rest o hk]
            exact BitVec.or_zero
          rw [bDecLongTag, show o :: ahead = [o] ++ ahead from rfl,
            (AsnBuf.getByte_reads past ahead o).run_bind]
          split
          · exact .inl ⟨_, _, _, rfl, htop⟩
          · rw [← htop]
            exact ih (by omega) _ _ _

/-- What `BDecTag` can find, as far as the loop looks at it. -/
theorem bDecTag_cases (n : ℕ) (past ahead : List Octet) :
    (∃ o rest, ahead = o :: rest ∧ (o = 0 ∨ o = 0x04 ∨ o = 0x24) ∧
        (bDecTag n).run ⟨past, ahead⟩ = .ok ((tagShift o 3, n + 1), ⟨o :: past, rest⟩)) ∨
      (∃ tag n' b, (bDecTag n).run ⟨past, ahead⟩ = .ok ((tag, n'), b) ∧ tag ≠ 0 ∧
        tag ≠ makeTagId 4 ∧ tag ≠ makeTagId 4 ||| consBit) ∨
      Throws ((bDecTag n).run ⟨past, ahead⟩) := by
  cases ahead with
  | nil => exact .inr (.inr ⟨_, rfl⟩)
  | cons o ahead =>
      have hrun : (bDecTag n).run ⟨past, o :: ahead⟩ =
          (if o &&& 0x1F = 0x1F then bDecLongTag 2 (tagShift o 3) (n + 1)
          else pure (tagShift o 3, n + 1) : BerM _).run ⟨o :: past, ahead⟩ := rfl
      -- the first octet of the tag that is found tells it from those that the loop knows
      have hne : ∀ tag : AsnTag, tag >>> 24 = o.setWidth 32 → ¬ (o = 0 ∨ o = 0x04 ∨ o = 0x24) →
          tag ≠ 0 ∧ tag ≠ makeTagId 4 ∧ tag ≠ makeTagId 4 ||| consBit := by
        intro tag htag ho
        have hinj : ∀ o' : Octet, o.setWidth 32 = o'.setWidth 32 → o = o' := by
          intro o' h
          simpa using congrArg (BitVec.setWidth 8) h
        refine ⟨?_, ?_, ?_⟩ <;> rintro rfl
        · exact ho (.inl (hinj 0 (htag.symm.trans (by decide))))
        · exact ho (.inr (.inl (hinj 0x04 (htag.symm.trans (by decide)))))
        · exact ho (.inr (.inr (hinj 0x24 (htag.symm.trans (by decide)))))
      by_cases hlong : o &&& 0x1F = 0x1F
      · rw [hrun, if_pos hlong]
        have ho : ¬ (o = 0 ∨ o = 0x04 ∨ o = 0x24) := by
          rintro (rfl | rfl | rfl) <;> exact absurd hlong (by decide)
        rcases bDecLongTag_cases le_rfl (tagShift o 3) (n + 1) ⟨o :: past, ahead⟩ with
          ⟨tag, n', b, hok, htag⟩ | hthrows
        · exact .inr (.inl ⟨tag, n', b, hok, hne tag (htag.trans (tagShift_top o)) ho⟩)
        · exact .inr (.inr hthrows)
      · rw [hrun, if_neg hlong]
        by_cases ho : o = 0 ∨ o = 0x04 ∨ o = 0x24
        · exact .inl ⟨o, ahead, rfl, ho, rfl⟩
        · exact .inr (.inl ⟨_, _, _, rfl, hne _ (tagShift_top o) ho⟩)

theorem bDecLongLen_cases (k len : ℕ) (past ahead : List Octet) :
    (∃ os rest n, ahead = os ++ rest ∧ os.length = k ∧
        ∀ past rest, Cursor.Reads past rest (bDecLongLen k len) os n) ∨
      Throws ((bDecLongLen k len).run ⟨past, ahead⟩) := by
  induction k generalizing len past ahead with
  | zero => exact .inl ⟨[], ahead, len, rfl, rfl, fun past rest => Cursor.Reads.pure past rest _⟩
  | succ k ih =>
      cases ahead with
      | nil => exact .inr ⟨_, rfl⟩
      | cons o ahead =>
          rcases ih ((256 * len + o.toNat) % 2 ^ 64) (o :: past) ahead with
            ⟨os, rest, n, rfl, hlen, hreads⟩ | hthrows
          · refine .inl ⟨o :: os, rest, n, rfl, by rw [List.length_cons, hlen], ?_⟩
            intro past rest
            show Cursor.Reads past rest _ ([o] ++ os) _
            exact (AsnBuf.getByte_reads past _ o).bind (hreads _ _)
          · refine .inr ?_
            rw [bDecLongLen, show o :: ahead = [o] ++ ahead from rfl,
              (AsnBuf.getByte_reads past ahead o).run_bind]
            exact hthrows

/-- `BDecLen` reads a length from the front, or throws. -/
theorem bDecLen_cases (k : ℕ) (past ahead : List Octet) :
    (∃ len rest n, ahead = len ++ rest ∧ len ≠ [] ∧ ReadsLen len n) ∨
      Throws ((bDecLen k).run ⟨past, ahead⟩) := by
  cases ahead with
  | nil => exact .inr ⟨_, rfl⟩
  | cons o ahead =>
      by_cases hshort : o.toNat < 128
      · refine .inl ⟨[o], ahead, o.toNat, rfl, List.cons_ne_nil _ _, fun past rest k => ?_⟩
        show Cursor.Reads past rest _ ([o] ++ []) _
        refine (AsnBuf.getByte_reads past _ o).bind ?_
        rw [if_pos hshort]
        exact Cursor.Reads.pure _ _ _
      · by_cases hopen : o = openLength
        · rw [hopen]
          exact .inl ⟨[openLength], ahead, indefiniteLen, rfl, List.cons_ne_nil _ _,
            bDecLen_openLength⟩
        · have hrun : ∀ k past rest, (bDecLen k).run ⟨past, o :: rest⟩ =
              (if 8 < (o &&& 0x7F).toNat then throw (boundsException "length overflow")
              else do
                let len ← bDecLongLen (o &&& 0x7F).toNat 0
                return (len, k + 1 + (o &&& 0x7F).toNat) : BerM _).run ⟨o :: past, rest⟩ := by
            intro k past rest
            rw [bDecLen, show o :: rest = [o] ++ rest from rfl,
              (AsnBuf.getByte_reads past rest o).run_bind]
            rw [if_neg hshort, if_neg hopen]
            rfl
          by_cases hover : 8 < (o &&& 0x7F).toNat
          · refine .inr ?_
            rw [hrun, if_pos hover]
            exact ⟨_, rfl⟩
          · rcases bDecLongLen_cases (o &&& 0x7F).toNat 0 (o :: past) ahead with
              ⟨os, rest, n, rfl, hlen, hreads⟩ | hthrows
            · refine .inl ⟨o :: os, rest, n, rfl, List.cons_ne_nil _ _, fun past rest k => ?_⟩
              rw [Cursor.Reads, List.cons_append, hrun, if_neg hover, (hreads _ _).run_bind,
                List.length_cons, hlen, show k + 1 + (o &&& 0x7F).toNat =
                  k + ((o &&& 0x7F).toNat + 1) by omega, List.reverse_cons, List.append_assoc]
              rfl
            · refine .inr ?_
              rw [hrun, if_neg hover]
              exact hthrows.bind


namespace ConsStringDeck

/-! ### A pass of the loop -/

/-- The octets that end contents of this length. -/
def endOf (length : ℕ) : List Octet := if length = indefiniteLen then endOfContents else []

/-- The count of the containing element, with what was read of the one that is left. -/
def addCount (count inner : ℕ) : ℕ := (count + toUlong (toInt32 inner)) % 2 ^ 64

/-- The end of an element of which `count` octets were read. -/
def leave (fuel : ℕ) (refList : List RefNode) (count : ℕ) (deck : List (List Octet)) :
    BerM (List (List Octet) × ℕ) :=
  match refList with
  | [] => return (deck, count)
  | parent :: refList => fillLoop 4 fuel ⟨parent.length, addCount parent.count count⟩ refList deck

section Pass

variable {fuel length count : ℕ} {refList : List RefNode} {deck : List (List Octet)}
  {past rest : List Octet}

/-- The element has not ended yet. -/
abbrev More (length count : ℕ) : Prop := count < length ∨ length = indefiniteLen

theorem fillLoop_done (h : ¬ More length count) :
    fillLoop 4 (fuel + 1) ⟨length, count⟩ refList deck = leave fuel refList count deck := by
  rw [fillLoop]
  dsimp only
  rw [if_neg h]
  cases refList <;> rfl

/-- A pass begins with a tag. -/
theorem fillLoop_more (h : More length count) :
    fillLoop 4 (fuel + 1) ⟨length, count⟩ refList deck = bDecTag count >>= fun r =>
      if r.1 = 0 ∧ length = indefiniteLen then do
        let ch ← AsnBuf.getByte
        if ch = 0 then leave fuel refList (r.2 + 1) deck
        else throw (except "Partial EOC tag found" .decodeError)
      else if r.1 = makeTagId 4 then do
        let r ← piece false r.2
        fillLoop 4 fuel ⟨length, r.2⟩ refList (deck ++ [r.1])
      else if r.1 = makeTagId 4 ||| consBit ∨ ((4 : ℕ) = 0 ∧ tagIsCons r.1) then do
        let r ← enter length r.2
        fillLoop 4 fuel ⟨r.1, 0⟩ (⟨length, r.2⟩ :: refList) deck
      else throw (invalidTagException "Constructed String") := by
  rw [fillLoop]
  dsimp only
  rw [if_pos h]
  cases refList <;> rfl

theorem fillLoop_end : (fillLoop 4 (fuel + 1) ⟨indefiniteLen, count⟩ refList deck).run
      ⟨past, endOfContents ++ rest⟩ =
    (leave fuel refList (count + 2) deck).run ⟨endOfContents.reverse ++ past, rest⟩ := by
  have htag : Cursor.Reads past ([0] ++ rest) (bDecTag count) [0] (0, count + 1) := rfl
  rw [fillLoop_more (.inr rfl), show endOfContents ++ rest = [0] ++ ([0] ++ rest) from rfl, htag.run_bind]
  dsimp only
  rw [if_pos ⟨rfl, rfl⟩, (AsnBuf.getByte_reads _ rest 0).run_bind]
  rfl

/-- What happens behind the tag of a primitive segment. -/
theorem fillLoop_primitive {ahead : List Octet} (hmore : More length count) :
    (fillLoop 4 (fuel + 1) ⟨length, count⟩ refList deck).run ⟨past, 0x04 :: ahead⟩ =
      (piece false (count + 1) >>= fun r =>
        fillLoop 4 fuel ⟨length, r.2⟩ refList (deck ++ [r.1])).run ⟨0x04 :: past, ahead⟩ := by
  have htag : Cursor.Reads past ahead (bDecTag count) [0x04] (0x04000000, count + 1) := rfl
  rw [fillLoop_more hmore, show 0x04 :: ahead = [0x04] ++ ahead from rfl, htag.run_bind]
  dsimp only
  rw [if_neg (fun h => absurd h.1 (by decide)), if_pos (by decide)]
  rfl

theorem fillLoop_constructed {ahead : List Octet} (hmore : More length count) :
    (fillLoop 4 (fuel + 1) ⟨length, count⟩ refList deck).run ⟨past, 0x24 :: ahead⟩ =
      (enter length (count + 1) >>= fun r =>
        fillLoop 4 fuel ⟨r.1, 0⟩ (⟨length, r.2⟩ :: refList) deck).run ⟨0x24 :: past, ahead⟩ := by
  have htag : Cursor.Reads past ahead (bDecTag count) [0x24] (0x24000000, count + 1) := rfl
  rw [fillLoop_more hmore, show 0x24 :: ahead = [0x24] ++ ahead from rfl, htag.run_bind]
  dsimp only
  rw [if_neg (fun h => absurd h.1 (by decide)), if_neg (by decide), if_pos (.inl (by decide))]
  rfl

theorem piece_reads {len contents : List Octet} (hlen : ReadsLen len contents.length)
    (hdefinite : contents.length ≠ indefiniteLen) :
    Cursor.Reads past rest (piece false count) (len ++ contents)
      (contents, count + len.length + contents.length) := by
  refine (hlen past (contents ++ rest) count).bind ?_
  dsimp only
  rw [if_neg hdefinite, Cursor.Reads, AsnBuf.run_length_bind, if_neg (fun h => by cases h.1)]
  exact (AsnBuf.getSeg_reads _ rest contents).run_bind

theorem enter_reads {len : List Octet} {n : ℕ} (hlen : ReadsLen len n)
    (hfit : n = indefiniteLen ∨ (n + (count + len.length)) % 2 ^ 64 ≤ length) :
    Cursor.Reads past rest (enter length count) len (n, count + len.length) := by
  rw [Cursor.Reads, enter, (hlen past rest count).run_bind]
  dsimp only
  rw [if_neg (fun h => hfit.elim h.1 (Nat.not_le.mpr h.2))]
  rfl

theorem piece_cases (count : ℕ) (past ahead : List Octet) :
    (∃ len contents rest, ahead = len ++ (contents ++ rest) ∧ len ≠ [] ∧
        ReadsLen len contents.length ∧ contents.length ≠ indefiniteLen) ∨
      Throws ((piece false count).run ⟨past, ahead⟩) := by
  rcases bDecLen_cases count past ahead with ⟨len, rest, n, rfl, hne, hlen⟩ | hthrows
  · by_cases hdefinite : n = indefiniteLen
    · refine .inr ?_
      rw [piece, (hlen past rest count).run_bind]
      dsimp only
      rw [if_pos hdefinite]
      exact ⟨_, rfl⟩
    · by_cases hshort : n ≤ rest.length
      · have htake : (rest.take n).length = n := by
          rw [List.length_take, min_eq_left hshort]
        refine .inl ⟨len, rest.take n, rest.drop n, ?_, hne, ?_, ?_⟩
        · rw [List.take_append_drop]
        · rwa [htake]
        · rwa [htake]
      · refine .inr ?_
        rw [piece, (hlen past rest count).run_bind]
        dsimp only
        rw [if_neg hdefinite, AsnBuf.run_length_bind, if_neg (fun h => by cases h.1)]
        exact Throws.bind ⟨_, if_neg hshort⟩
  · exact .inr hthrows.bind

theorem enter_cases (length count : ℕ) (past ahead : List Octet) :
    (∃ len rest n, ahead = len ++ rest ∧ len ≠ [] ∧ ReadsLen len n ∧
        (n = indefiniteLen ∨ (n + (count + len.length)) % 2 ^ 64 ≤ length)) ∨
      Throws ((enter length count).run ⟨past, ahead⟩) := by
  rcases bDecLen_cases count past ahead with ⟨len, rest, n, rfl, hne, hlen⟩ | hthrows
  · by_cases hover : n ≠ indefiniteLen ∧ length < (n + (count + len.length)) % 2 ^ 64
    · refine .inr ?_
      rw [enter, (hlen past rest count).run_bind]
      dsimp only
      rw [if_pos hover]
      exact ⟨_, rfl⟩
    · refine .inl ⟨len, rest, n, rfl, hne, hlen, ?_⟩
      rcases not_and_or.mp hover with h | h
      · exact .inl (not_not.mp h)
      · exact .inr (Nat.not_lt.mp h)
  · exact .inr hthrows.bind

/-- An octet 0 in place of a tag is the first one of an end of contents, or the loop throws. -/
theorem fillLoop_zero {fuel : ℕ} {refList : List RefNode} {deck : List (List Octet)}
    {length count : ℕ} {past ahead : List Octet} (hmore : More length count) :
    (length = indefiniteLen ∧ ∃ rest, 0 :: ahead = endOfContents ++ rest) ∨
      Throws ((fillLoop 4 (fuel + 1) ⟨length, count⟩ refList deck).run ⟨past, 0 :: ahead⟩) := by
  have hzero : tagShift 0 3 = 0 := by decide
  have hok : (bDecTag count).run ⟨past, 0 :: ahead⟩ =
      .ok ((tagShift 0 3, count + 1), ⟨0 :: past, ahead⟩) := rfl
  rw [fillLoop_more hmore, StateT.run_bind, hok]
  by_cases hopen : length = indefiniteLen
  · cases ahead with
    | nil =>
        refine .inr ?_
        show Throws (StateT.run (ite _ _ _) _)
        rw [if_pos ⟨hzero, hopen⟩]
        exact ⟨_, rfl⟩
    | cons o rest =>
        by_cases ho : o = 0
        · rw [ho]
          exact .inl ⟨hopen, rest, rfl⟩
        · refine .inr ?_
          show Throws (StateT.run (ite _ _ _) _)
          rw [if_pos ⟨hzero, hopen⟩, show o :: rest = [o] ++ rest from rfl,
            (AsnBuf.getByte_reads _ rest o).run_bind, if_neg ho]
          exact ⟨_, rfl⟩
  · refine .inr ?_
    show Throws (StateT.run (ite _ _ _) _)
    rw [if_neg (fun h => hopen h.2), if_neg (show tagShift 0 3 ≠ makeTagId 4 by decide),
      if_neg (not_or.mpr ⟨show tagShift 0 3 ≠ makeTagId 4 ||| consBit by decide,
        fun h => absurd h.1 (by decide)⟩)]
    exact ⟨_, rfl⟩

/-- What a pass of the loop does with the octets that are left. -/
theorem fillLoop_cases (fuel length count : ℕ) (refList : List RefNode) (deck : List (List Octet))
    (past ahead : List Octet) :
    ¬ More length count ∨ More length count ∧
      ((length = indefiniteLen ∧ ∃ rest, ahead = endOfContents ++ rest) ∨
        (∃ len contents rest, ahead = 0x04 :: (len ++ (contents ++ rest)) ∧ len ≠ [] ∧
          ReadsLen len contents.length ∧ contents.length ≠ indefiniteLen) ∨
        (∃ len rest n, ahead = 0x24 :: (len ++ rest) ∧ len ≠ [] ∧ ReadsLen len n ∧
          (n = indefiniteLen ∨ (n + (count + 1 + len.length)) % 2 ^ 64 ≤ length)) ∨
        Throws ((fillLoop 4 (fuel + 1) ⟨length, count⟩ refList deck).run ⟨past, ahead⟩)) := by
  by_cases hmore : More length count
  · refine .inr ⟨hmore, ?_⟩
    rcases bDecTag_cases count past ahead with
      ⟨o, rest, rfl, ho, hok⟩ | ⟨tag, n, b, hok, hne⟩ | hthrows
    · rcases ho with rfl | rfl | rfl
      · exact (fillLoop_zero hmore).imp id fun hthrows => .inr (.inr hthrows)
      · rcases piece_cases (count + 1) (0x04 :: past) rest with
          ⟨len, contents, rest, rfl, hne, hlen, hdefinite⟩ | hthrows
        · exact .inr (.inl ⟨len, contents, rest, rfl, hne, hlen, hdefinite⟩)
        · refine .inr (.inr (.inr ?_))
          rw [fillLoop_primitive hmore]
          exact hthrows.bind
      · rcases enter_cases length (count + 1) (0x24 :: past) rest with
          ⟨len, rest, n, rfl, hne, hlen, hfit⟩ | hthrows
        · exact .inr (.inr (.inl ⟨len, rest, n, rfl, hne, hlen, hfit⟩))
        · refine .inr (.inr (.inr ?_))
          rw [fillLoop_constructed hmore]
          exact hthrows.bind
    · refine .inr (.inr (.inr ?_))
      rw [fillLoop_more hmore, StateT.run_bind, hok]
      show Throws (StateT.run (ite _ _ _) _)
      rw [if_neg (fun h => hne.1 h.1), if_neg hne.2.1,
        if_neg (not_or.mpr ⟨hne.2.2, fun h => absurd h.1 (by decide)⟩)]
      exact ⟨_, rfl⟩
    · refine .inr (.inr (.inr ?_))
      rw [fillLoop_more hmore]
      exact hthrows.bind
  · exact .inl hmore

end Pass

end ConsStringDeck

/-! ### What the loop walks through -/

/-- Segments of a constructed string, each with its length octets; `innerLen` is the length
that those of a constructed segment denote. -/
inductive Parts
  | nil
  | primitive (len contents : List Octet) (next : Parts)
  | constructed (len : List Octet) (innerLen : ℕ) (inner next : Parts)

namespace Parts

open ConsStringDeck

def octets : Parts → List Octet
  | nil => []
  | primitive len contents next => 0x04 :: (len ++ (contents ++ next.octets))
  | constructed len innerLen inner next =>
      0x24 :: (len ++ (inner.octets ++ (endOf innerLen ++ next.octets)))

/-- The octets of the primitive segments, in order. -/
def pieces : Parts → List (List Octet)
  | nil => []
  | primitive _ contents next => contents :: next.pieces
  | constructed _ _ inner next => inner.pieces ++ next.pieces

/-- The count behind the segments, if `add` adds that of a constructed segment. -/
def countFrom (add : ℕ → ℕ → ℕ) : ℕ → Parts → ℕ
  | count, nil => count
  | count, primitive len contents next =>
      countFrom add (count + 1 + len.length + contents.length) next
  | count, constructed len innerLen inner next =>
      countFrom add (add (count + 1 + len.length)
        (countFrom add 0 inner + (endOf innerLen).length)) next

/-- The loop stops behind the segments, and not in front of any of them; and it finds nothing
to complain about. -/
def Fits (add : ℕ → ℕ → ℕ) (length : ℕ) : ℕ → Parts → Prop
  | count, nil => length = indefiniteLen ∨ length ≤ count
  | count, primitive len contents next =>
      More length count ∧ ReadsLen len contents.length ∧ contents.length ≠ indefiniteLen ∧
        next.Fits add length (count + 1 + len.length + contents.length)
  | count, constructed len innerLen inner next =>
      More length count ∧ ReadsLen len innerLen ∧
        (innerLen = indefiniteLen ∨ (innerLen + (count + 1 + len.length)) % 2 ^ 64 ≤ length) ∧
          inner.Fits add innerLen 0 ∧
            next.Fits add length (add (count + 1 + len.length)
              (countFrom add 0 inner + (endOf innerLen).length))

end Parts

namespace ConsStringDeck

open Parts

/-- The octets that the loop leaves behind when an element ends. -/
def passed (length : ℕ) (parts : Parts) (past : List Octet) : List Octet :=
  (endOf length).reverse ++ (parts.octets.reverse ++ past)

theorem endOf_indefinite : endOf indefiniteLen = endOfContents := if_pos rfl

/-- Behind segments that fit, the element has been read. -/
theorem fillLoop_parts {parts : Parts} {length count fuel : ℕ} {refList : List RefNode}
    {deck : List (List Octet)} {past rest : List Octet} (hfits : parts.Fits addCount length count)
    (hfuel : parts.octets.length < fuel) :
    ∃ fuel', fuel ≤ fuel' + parts.octets.length + 1 ∧
      (fillLoop 4 fuel ⟨length, count⟩ refList deck).run
          ⟨past, parts.octets ++ (endOf length ++ rest)⟩ =
        (leave fuel' refList (parts.countFrom addCount count + (endOf length).length)
          (deck ++ parts.pieces)).run ⟨passed length parts past, rest⟩ := by
  induction parts generalizing length count fuel refList deck past rest with
  | nil =>
      obtain ⟨fuel, rfl⟩ : ∃ f, fuel = f + 1 := ⟨fuel - 1, by omega⟩
      refine ⟨fuel, by omega, ?_⟩
      rw [pieces, List.append_nil]
      by_cases hopen : length = indefiniteLen
      · rw [hopen, passed, endOf_indefinite]
        exact fillLoop_end
      · have hle : length ≤ count := hfits.resolve_left hopen
        rw [passed, endOf, if_neg hopen,
          fillLoop_done (not_or.mpr ⟨Nat.not_lt.mpr hle, hopen⟩)]
        rfl
  | primitive len contents next ih =>
      obtain ⟨hmore, hlen, hdefinite, hnext⟩ := hfits
      have hpos := hlen.pos
      simp only [octets, List.length_cons, List.length_append] at hfuel ⊢
      obtain ⟨fuel, rfl⟩ : ∃ f, fuel = f + 1 := ⟨fuel - 1, by omega⟩
      obtain ⟨fuel', hfuel', hrun⟩ := @ih _ _ fuel refList (deck ++ [contents])
        (contents.reverse ++ (len.reverse ++ (0x04 :: past))) rest hnext (by omega)
      refine ⟨fuel', by omega, ?_⟩
      have hread := @piece_reads (count + 1) (0x04 :: past) (next.octets ++ (endOf length ++ rest))
        len contents hlen hdefinite
      rw [show 0x04 :: (len ++ (contents ++ next.octets)) ++ (endOf length ++ rest) =
          0x04 :: ((len ++ contents) ++ (next.octets ++ (endOf length ++ rest))) by simp,
        fillLoop_primitive hmore, hread.run_bind, List.reverse_append, List.append_assoc]
      refine hrun.trans ?_
      rw [countFrom, pieces, List.append_assoc]
      simp only [passed, octets, List.reverse_cons, List.reverse_append, List.append_assoc,
        List.singleton_append]
  | constructed len innerLen inner next ihInner ihNext =>
      obtain ⟨hmore, hlen, hfit, hinner, hnext⟩ := hfits
      have hpos := hlen.pos
      simp only [octets, List.length_cons, List.length_append] at hfuel ⊢
      obtain ⟨fuel, rfl⟩ : ∃ f, fuel = f + 1 := ⟨fuel - 1, by omega⟩
      obtain ⟨fuel₁, hfuel₁, hrun₁⟩ := @ihInner innerLen 0 fuel
        (⟨length, count + 1 + len.length⟩ :: refList) deck (len.reverse ++ (0x24 :: past))
        (next.octets ++ (endOf length ++ rest)) hinner (by omega)
      obtain ⟨fuel₂, hfuel₂, hrun₂⟩ := @ihNext length _ fuel₁ refList (deck ++ inner.pieces)
        (passed innerLen inner (len.reverse ++ (0x24 :: past))) rest hnext (by omega)
      refine ⟨fuel₂, by omega, ?_⟩
      have hread := @enter_reads length (count + 1) (0x24 :: past)
        (inner.octets ++ (endOf innerLen ++ (next.octets ++ (endOf length ++ rest)))) len innerLen
        hlen hfit
      rw [show 0x24 :: (len ++ (inner.octets ++ (endOf innerLen ++ next.octets))) ++
          (endOf length ++ rest) = 0x24 :: (len ++ (inner.octets ++ (endOf innerLen ++
            (next.octets ++ (endOf length ++ rest))))) by simp,
        fillLoop_constructed hmore, hread.run_bind]
      refine hrun₁.trans (hrun₂.trans ?_)
      rw [countFrom, pieces, List.append_assoc]
      simp only [passed, octets, List.reverse_cons, List.reverse_append, List.append_assoc,
        List.singleton_append]

/-- What is read when the loop returns is made of segments that fit, up to the end of the
element it was called for. -/
theorem of_fillLoop {length count fuel : ℕ} {refList : List RefNode} {deck : List (List Octet)}
    {past ahead : List Octet} {r : List (List Octet) × ℕ} {b : AsnBuf}
    (h : (fillLoop 4 fuel ⟨length, count⟩ refList deck).run ⟨past, ahead⟩ = .ok (r, b)) :
    ∃ parts rest fuel', fuel' < fuel ∧ ahead = parts.octets ++ (endOf length ++ rest) ∧
      parts.Fits addCount length count ∧
      (leave fuel' refList (parts.countFrom addCount count + (endOf length).length)
        (deck ++ parts.pieces)).run ⟨passed length parts past, rest⟩ = .ok (r, b) := by
  induction fuel using Nat.strong_induction_on generalizing length count refList deck past ahead
  rename_i fuel ih
  cases fuel with
  | zero => cases h
  | succ fuel =>
      rcases fillLoop_cases fuel length count refList deck past ahead with
        hdone | ⟨hmore, ⟨rfl, rest, rfl⟩ | ⟨len, contents, rest, rfl, -, hlen, hdefinite⟩ |
          ⟨len, rest, n, rfl, -, hlen, hfit⟩ | ⟨e, he⟩⟩
      · obtain ⟨hle, hopen⟩ := not_or.mp hdone
        rw [fillLoop_done hdone] at h
        refine ⟨.nil, ahead, fuel, Nat.lt_succ_self _, ?_, .inr (Nat.not_lt.mp hle), ?_⟩
        · rw [endOf, if_neg hopen]
          rfl
        · rw [pieces, List.append_nil, passed, endOf, if_neg hopen]
          exact h
      · rw [fillLoop_end] at h
        refine ⟨.nil, rest, fuel, Nat.lt_succ_self _, ?_, .inl rfl, ?_⟩
        · rw [endOf_indefinite]
          rfl
        · rw [pieces, List.append_nil, passed, endOf_indefinite]
          exact h
      · have hread := @piece_reads (count + 1) (0x04 :: past) rest len contents hlen hdefinite
        rw [fillLoop_primitive hmore, ← List.append_assoc, hread.run_bind] at h
        obtain ⟨parts, rest, fuel', hlt, rfl, hparts, h⟩ := ih fuel (Nat.lt_succ_self _) h
        refine ⟨.primitive len contents parts, rest, fuel', by omega, ?_,
          ⟨hmore, hlen, hdefinite, hparts⟩, ?_⟩
        · simp [octets]
        · rw [countFrom, pieces]
          simpa [passed, octets] using h
      · have hread := @enter_reads length (count + 1) (0x24 :: past) rest len n hlen hfit
        rw [fillLoop_constructed hmore, hread.run_bind] at h
        -- behind the inner segments the loop goes on with the element that contains them
        obtain ⟨inner, rest, fuel₁, hlt₁, rfl, hinner, h⟩ := ih fuel (Nat.lt_succ_self _) h
        obtain ⟨next, rest, fuel₂, hlt₂, rfl, hnext, h⟩ := ih fuel₁ (by omega) h
        refine ⟨.constructed len n inner next, rest, fuel₂, by omega, ?_,
          ⟨hmore, hlen, hfit, hinner, hnext⟩, ?_⟩
        · simp [octets]
        · rw [countFrom, pieces]
          simpa [passed, octets] using h
      · rw [he] at h
        cases h

/-- The loop returns or throws as long as it may make a pass for every octet that is left and
every element that is open. -/
theorem fillLoop_throws {length count fuel : ℕ} {refList : List RefNode}
    {deck : List (List Octet)} {past ahead : List Octet}
    (hfuel : ahead.length + refList.length < fuel) :
    (∃ r, (fillLoop 4 fuel ⟨length, count⟩ refList deck).run ⟨past, ahead⟩ = .ok r) ∨
      Throws ((fillLoop 4 fuel ⟨length, count⟩ refList deck).run ⟨past, ahead⟩) := by
  induction fuel generalizing length count refList deck past ahead with
  | zero => omega
  | succ fuel ih =>
      -- leaving an element reads nothing, but closes it
      have hleave : ∀ count past ahead, ahead.length + refList.length < fuel + 1 →
          (∃ r, (leave fuel refList count deck).run ⟨past, ahead⟩ = .ok r) ∨
            Throws ((leave fuel refList count deck).run ⟨past, ahead⟩) := by
        intro count past ahead hlt
        cases refList with
        | nil => exact .inl ⟨_, rfl⟩
        | cons parent refList =>
            rw [List.length_cons] at hlt
            exact ih (by omega)
      rcases fillLoop_cases fuel length count refList deck past ahead with
        hdone | ⟨hmore, ⟨rfl, rest, rfl⟩ | ⟨len, contents, rest, rfl, -, hlen, hdefinite⟩ |
          ⟨len, rest, n, rfl, -, hlen, hfit⟩ | hthrows⟩
      · rw [fillLoop_done hdone]
        exact hleave _ _ _ hfuel
      · rw [fillLoop_end]
        rw [List.length_append] at hfuel
        exact hleave _ _ _ (by omega)
      · have hread := @piece_reads (count + 1) (0x04 :: past) rest len contents hlen hdefinite
        rw [fillLoop_primitive hmore, ← List.append_assoc, hread.run_bind]
        simp only [List.length_cons, List.length_append] at hfuel
        exact ih (by omega)
      · have hread := @enter_reads length (count + 1) (0x24 :: past) rest len n hlen hfit
        have hpos := hlen.pos
        rw [fillLoop_constructed hmore, hread.run_bind]
        simp only [List.length_cons, List.length_append] at hfuel
        exact ih (by rw [List.length_cons]; omega)
      · exact .inr hthrows

end ConsStringDeck

end Esnacc
