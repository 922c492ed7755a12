import Esnacc.Generated.Tag
import Esnacc.Lib.ExchangeSort
import Esnacc.Per.SetOf

/-!
The packed encoding rules in generated code: a preamble of presence bits and then the members,
which are sorted in a SET; a CHOICE begins with the index of its alternative.
-/

namespace Esnacc.Generated

open BitString StreamCodec AsnBufBits
open Compiler (TagClass)

variable {α : Type}

/-- What the class of a member writes, wherever it begins, it reads back. -/
def RoundTrips (cls : PerCodec α) (x : α) : Prop :=
  ∀ bAligned pre, ∃ xs, Puts bAligned pre (cls.pEnc x) xs ∧
    Gets bAligned pre.length xs cls.pDec x

/-- A member of a SEQUENCE or a SET, or an alternative of a CHOICE. `optional` is set for a DEFAULT
too, and `bitContaining` for a BIT STRING CONTAINING. The tags are what `GetTags` returns. -/
structure PerElmt (α : Type) where
  tags : List BerTag
  stoleChoiceTags : Bool
  optional : Bool
  bitContaining : Bool
  cls : PerCodec α

namespace PerElmt

/-- The integer that `PrintCxxDefCode_PERSort` sorts an element by. -/
def sortKey (e : PerElmt α) : ℕ :=
  match e.tags with
  | [] => 0
  | tag :: tags =>
      if e.stoleChoiceTags then
        (tag :: tags).foldl (fun elementTag tag =>
          if tag.code < elementTag then tag.code else elementTag) 9999
      else tag.code

end PerElmt

/-- The classes in their canonical order. -/
def classRank : TagClass → ℕ
  | .univ => 0
  | .appl => 1
  | .cntx => 2
  | .priv => 3

/-- A tag in the canonical order: by its class, then by its number. -/
def tagRank (tag : BerTag) : ℕ ×ₗ ℕ := toLex (classRank tag.tclass, tag.code)

/-- The place of an element in the canonical order: that of its first tag, and of the smallest one
for a CHOICE without a tag. -/
def PerElmt.canonicalTag (e : PerElmt α) : ℕ ×ₗ ℕ :=
  match e.tags with
  | [] => toLex (0, 0)
  | tag :: tags =>
      if e.stoleChoiceTags then tags.foldl (fun rank tag => min rank (tagRank tag)) (tagRank tag)
      else tagRank tag

/-! ### SEQUENCE and SET -/

/-- The bits of the preamble. -/
def presence (members : List (PerElmt α × Option α)) : List Bool :=
  (members.filter fun p => p.1.optional).map fun p => p.2.isSome

/-- The members one after the other. One that is not OPTIONAL is accessed without a test. -/
def pEncMembers : List (PerElmt α × Option α) → PerM ℕ
  | [] => return 0
  | (e, some x) :: members => do
      let l ← e.cls.pEnc x
      let rest ← pEncMembers members
      return l + rest
  | (e, none) :: members =>
      if e.optional then pEncMembers members
      else throw (.undefinedBehaviour "member access through a null pointer")

/-- `PEnc` of a SEQUENCE or SET. -/
def setSeqPEnc (members : List (PerElmt α × Option α)) : PerM ℕ := do
  let l ← (if (presence members).length = 0 then pure 0
    else PerM.putBits (pack (presence members)) (presence members).length : PerM ℕ)
  let rest ← pEncMembers members
  return l + rest

/-- The loop of `GetBits` into an `AsnBits`. -/
def getBitLoop : ℕ → PerM (List Bool)
  | 0 => return []
  | n + 1 => do
      let bit ← PerM.getBit
      let bits ← getBitLoop n
      return bit :: bits

/-- `GetBits` into an `AsnBits`. -/
def getAsnBits (numBits : ℕ) : PerM (List Bool) := do
  let left ← PerM.bitsLeft
  if left < numBits then
    throw (bufferException "Trying to retrieve more bits than in the buffer")
  else getBitLoop numBits

/-- The members, by the bits of the preamble. -/
def pDecMembers : List (PerElmt α) → List Bool → ℕ → PerM (List (Option α) × ℕ)
  | [], _, bitsDecoded => return ([], bitsDecoded)
  | e :: elmts, bits, bitsDecoded =>
      if e.optional ∧ bits.head? ≠ some true then do
        let (members, bitsDecoded) ← pDecMembers elmts bits.tail bitsDecoded
        return (none :: members, bitsDecoded)
      else do
        let (x, bitsDecoded) ← e.cls.pDec bitsDecoded
        let (members, bitsDecoded) ←
          pDecMembers elmts (if e.optional then bits.tail else bits) bitsDecoded
        return (some x :: members, bitsDecoded)

/-- The number of elements with a bit in the preamble. -/
def optionalCount (elmts : List (PerElmt α)) : ℕ := (elmts.filter PerElmt.optional).length

/-- `PDec` of a SEQUENCE or SET. -/
def setSeqPDec (elmts : List (PerElmt α)) (bitsDecoded : ℕ) : PerM (List (Option α) × ℕ) := do
  let bits ← (if optionalCount elmts = 0 then pure [] else getAsnBits (optionalCount elmts) :
    PerM (List Bool))
  pDecMembers elmts bits (bitsDecoded + bits.length)

/-- `PrintCxxDefCode_SetSeqPERDecode`, which prints nothing without an array of elements. -/
def printSetSeqPERDecode (pSetElementNamedType : Option (List (PerElmt α))) :
    Option (ℕ → PerM (List (Option α) × ℕ)) :=
  pSetElementNamedType.map setSeqPDec

/-! ### CHOICE -/

/-- The constraint of the index when it is encoded: the method that is printed is not `const`, and
hides the one of `AsnInt` instead of overriding it. -/
def indexRanges : List ValueRange := []

/-- The sorted alternatives, each with its `choiceId`. -/
def sortedAlternatives (elmts : List (PerElmt α)) : List (PerElmt α × ℕ) :=
  ExchangeSort.sort (fun p => p.1.sortKey) elmts.zipIdx

/-- The index of an alternative. -/
def choiceIndex (elmts : List (PerElmt α)) (choiceId : ℕ) : ℕ :=
  ((sortedAlternatives elmts).findIdx? fun p => p.2 = choiceId).getD elmts.length

/-- `PEnc` of a CHOICE. -/
def choicePEnc (elmts : List (PerElmt α)) (choiceId : ℕ) (x : α) : PerM ℕ := do
  let index ← StateT.lift (AsnInt.set (choiceIndex elmts choiceId))
  let l ← index.pEnc indexRanges
  match elmts[choiceId]? with
  | some e => do
      let len ← e.cls.pEnc x
      return l + len
  | none => throw (except "Choice is empty" .encodeError)

/-- `PDec` of a CHOICE. For an index that belongs to no alternative nothing is decoded. -/
def choicePDec (elmts : List (PerElmt α)) (bitsDecoded : ℕ) : PerM (Option (ℕ × α) × ℕ) := do
  let (index, bitsDecoded) ← AsnInt.cleared.pDec indexRanges bitsDecoded
  let found := (sortedAlternatives elmts).zipIdx.find? fun p =>
    match index.getInt with
    | .ok value => value = p.2
    | .error _ => false
  match found with
  | some ((e, choiceId), _) => do
      let (x, bitsDecoded) ← e.cls.pDec bitsDecoded
      return (some (choiceId, x), bitsDecoded)
  | none => return (none, bitsDecoded)

/-! ### What the codecs are for -/

inductive PerKind
  | sequence | set | choice
  deriving DecidableEq, Repr

/-- A constructed type without extensions. -/
structure PerType (α : Type) where
  kind : PerKind
  elmts : List (PerElmt α)

namespace PerType

/-- The members in the order of `PEnc`. -/
def arranged (t : PerType α) (members : List (PerElmt α × Option α)) :
    List (PerElmt α × Option α) :=
  match t.kind with
  | .set => ExchangeSort.sort (PerElmt.sortKey ∘ Prod.fst) members
  | .sequence | .choice => members

/-- The `PEnc` that is printed. What is printed after a BIT STRING CONTAINING puts a variable `tmp`,
and the one that is declared is `_tmp`: there is no such method then. -/
def pEnc? (t : PerType α) : Option (List (PerElmt α × Option α) → PerM ℕ) :=
  if t.elmts.any PerElmt.bitContaining then none
  else some fun members => setSeqPEnc (t.arranged members)

/-- The `PDec` that is printed next to a `PEnc`. For a SEQUENCE the emitter of the encoder fills a
copy of the pointer to the elements, and the one of the decoder gets the null pointer. -/
def pDec? (t : PerType α) : Option (ℕ → PerM (List (Option α) × ℕ)) :=
  match t.kind with
  | .set => printSetSeqPERDecode (some (ExchangeSort.sort PerElmt.sortKey t.elmts))
  | .sequence | .choice => printSetSeqPERDecode none

/-- A member that the type and its class allow. -/
def IsPerMember (p : PerElmt α × Option α) : Prop :=
  match p.2 with
  | some x => RoundTrips p.1.cls x
  | none => p.1.optional = true

/-- There are an encoder and a decoder, and every member comes back. -/
def MembersSurvive (t : PerType α) : Prop :=
  ∃ pEnc pDec, t.pEnc? = some pEnc ∧ t.pDec? = some pDec ∧
    ∀ members : List (PerElmt α × Option α), members.map Prod.fst = t.elmts →
      (∀ p ∈ members, IsPerMember p) → ∀ bAligned pre,
        ∃ xs, Puts bAligned pre (pEnc members) xs ∧
          Gets bAligned pre.length xs pDec ((t.arranged members).map Prod.snd)

/-- The alternative comes back, and its index is an integer from 0 to one less than the number of
the alternatives. -/
structure AlternativesSurvive (t : PerType α) : Prop where
  recovers : ∀ i e x, t.elmts[i]? = some e → RoundTrips e.cls x → ∀ bAligned pre,
    ∃ xs, Puts bAligned pre (choicePEnc t.elmts i x) xs ∧
      Gets bAligned pre.length xs (choicePDec t.elmts) (some (i, x))
  index : ∀ v, Satisfies indexRanges v ↔ 0 ≤ v ∧ v < t.elmts.length

/-- On the wire the elements have the canonical order, in whatever order they were declared. -/
def Canonical (t : PerType α) : Prop :=
  ∀ elmts : List (PerElmt α), elmts.Perm t.elmts →
    (ExchangeSort.sort PerElmt.sortKey elmts).Pairwise fun e e' => e.canonicalTag < e'.canonicalTag

/-- The emitted codec does what it is for. -/
def InverseCanonical (t : PerType α) : Prop :=
  match t.kind with
  | .sequence => t.MembersSurvive
  | .set => t.MembersSurvive ∧ t.Canonical
  | .choice => t.AlternativesSurvive ∧ t.Canonical

end PerType

/-! ### The preamble -/

variable {bAligned : Bool}

theorem puts_pack (pre bits : List Bool) :
    Puts bAligned pre (PerM.putBits (pack bits) bits.length) bits := by
  have hput := @emits_putBits bAligned pre (pack bits) bits.length (by rw [length_pack]; omega)
  exact hput.of_eq rfl (by rw [octetBits_pack, List.take_left])

theorem takes_getBitLoop (pos : ℕ) (xs : List Bool) :
    Takes (Unread bAligned) pos xs (getBitLoop xs.length) xs := by
  induction xs generalizing pos with
  | nil => exact Takes.pure pos []
  | cons x xs ih => exact (takes_getBit pos x).bind ((ih (pos + 1)).bind_pure (x :: ·))

theorem takes_getAsnBits (pos : ℕ) (xs : List Bool) :
    Takes (Unread bAligned) pos xs (getAsnBits xs.length) xs := by
  refine Takes.bind_read fun b rest hb => ?_
  have hleft := hb.bitsLeft
  rw [List.length_append] at hleft
  rw [if_neg (by omega)]
  exact takes_getBitLoop pos xs

theorem length_presence (members : List (PerElmt α × Option α)) :
    (presence members).length = optionalCount (members.map Prod.fst) := by
  rw [presence, optionalCount, List.length_map, List.filter_map, List.length_map]
  rfl

theorem puts_preamble (pre : List Bool) (members : List (PerElmt α × Option α)) :
    Puts bAligned pre (if (presence members).length = 0 then pure 0
      else PerM.putBits (pack (presence members)) (presence members).length)
      (presence members) := by
  by_cases hnone : (presence members).length = 0
  · rw [if_pos hnone, List.eq_nil_of_length_eq_zero hnone]
    exact Emits.pure pre 0
  · rw [if_neg hnone]
    exact puts_pack pre _

theorem takes_preamble (pos : ℕ) (members : List (PerElmt α × Option α)) :
    Takes (Unread bAligned) pos (presence members)
      (if optionalCount (members.map Prod.fst) = 0 then pure []
        else getAsnBits (optionalCount (members.map Prod.fst))) (presence members) := by
  rw [← length_presence]
  by_cases hnone : (presence members).length = 0
  · rw [if_pos hnone, List.eq_nil_of_length_eq_zero hnone]
    exact Takes.pure pos []
  · rw [if_neg hnone]
    exact takes_getAsnBits pos _

/-! ### The members -/

/-- A member that is there and the bits for what follows it. -/
theorem pDecMembers_some {pos : ℕ} {e : PerElmt α} {x : α} {members : List (PerElmt α × Option α)}
    {xs ys : List Bool} (hx : Gets bAligned pos xs e.cls.pDec x)
    (hmembers : Gets bAligned (pos + xs.length) ys
      (pDecMembers (members.map Prod.fst) (presence members)) (members.map Prod.snd)) :
    Gets bAligned pos (xs ++ ys)
      (pDecMembers (((e, some x) :: members).map Prod.fst) (presence ((e, some x) :: members)))
      (((e, some x) :: members).map Prod.snd) := by
  intro count
  -- a member with a bit of its own finds it set, and one without never looks
  have hpresent :
      ¬ (e.optional = true ∧ (presence ((e, some x) :: members)).head? ≠ some true) := by
    rintro ⟨hoptional, hhead⟩
    simp [presence, hoptional] at hhead
  have hrest : (if e.optional = true then (presence ((e, some x) :: members)).tail
      else presence ((e, some x) :: members)) = presence members := by
    cases hoptional : e.optional <;> simp [presence, hoptional]
  rw [List.map_cons, pDecMembers, if_neg hpresent]
  refine (hx count).bind ?_
  dsimp only
  rw [hrest]
  exact ((hmembers (count + xs.length)).bind_pure fun r => (some x :: r.1, r.2)).of_eq
    (by simp [Nat.add_assoc]) rfl

theorem pDecMembers_none {pos : ℕ} {e : PerElmt α} {members : List (PerElmt α × Option α)}
    {ys : List Bool} (hoptional : e.optional = true)
    (hmembers : Gets bAligned pos ys
      (pDecMembers (members.map Prod.fst) (presence members)) (members.map Prod.snd)) :
    Gets bAligned pos ys
      (pDecMembers (((e, none) :: members).map Prod.fst) (presence ((e, none) :: members)))
      (((e, none) :: members).map Prod.snd) := by
  intro count
  have hpresence : presence ((e, none) :: members) = false :: presence members := by
    simp [presence, hoptional]
  rw [List.map_cons, pDecMembers, hpresence, if_pos ⟨hoptional, by simp⟩]
  exact (hmembers count).bind_pure fun r => (none :: r.1, r.2)

theorem pEncMembers_pDecMembers {members : List (PerElmt α × Option α)}
    (hok : ∀ p ∈ members, PerType.IsPerMember p) (pre : List Bool) :
    ∃ xs, Puts bAligned pre (pEncMembers members) xs ∧
      Gets bAligned pre.length xs (pDecMembers (members.map Prod.fst) (presence members))
        (members.map Prod.snd) := by
  induction members generalizing pre with
  | nil => exact ⟨[], Emits.pure pre 0, fun count => Takes.pure _ _⟩
  | cons p members ih =>
      obtain ⟨hp, hmembers⟩ := List.forall_mem_cons.mp hok
      obtain ⟨e, v⟩ := p
      cases v with
      | none =>
          obtain ⟨ys, hputs, hgets⟩ := ih hmembers pre
          refine ⟨ys, ?_, pDecMembers_none hp hgets⟩
          rw [pEncMembers, if_pos (show e.optional = true from hp)]
          exact hputs
      | some x =>
          obtain ⟨xs, hput, hget⟩ := hp bAligned pre
          obtain ⟨ys, hputs, hgets⟩ := ih hmembers (pre ++ xs)
          rw [List.length_append] at hgets
          exact ⟨xs ++ ys, hput.add hputs, pDecMembers_some hget hgets⟩

theorem setSeqPEnc_setSeqPDec {members : List (PerElmt α × Option α)}
    (hok : ∀ p ∈ members, PerType.IsPerMember p) (pre : List Bool) :
    ∃ xs, Puts bAligned pre (setSeqPEnc members) xs ∧
      Gets bAligned pre.length xs (setSeqPDec (members.map Prod.fst)) (members.map Prod.snd) := by
  obtain ⟨ys, hputs, hgets⟩ := pEncMembers_pDecMembers hok (pre ++ presence members)
  rw [List.length_append] at hgets
  refine ⟨presence members ++ ys, (puts_preamble pre members).add hputs, fun count => ?_⟩
  refine (takes_preamble pre.length members).bind ((hgets _).of_eq ?_ rfl)
  rw [List.length_append, Nat.add_assoc]

/-! ### The order -/

theorem arranged_perm (t : PerType α) (members : List (PerElmt α × Option α)) :
    (t.arranged members).Perm members := by
  rw [PerType.arranged]
  cases t.kind with
  | set => exact ExchangeSort.sort_perm _ members
  | sequence => exact List.Perm.refl _
  | choice => exact List.Perm.refl _

theorem map_fst_arranged {t : PerType α} (hkind : t.kind = .set)
    (members : List (PerElmt α × Option α)) :
    (t.arranged members).map Prod.fst =
      ExchangeSort.sort PerElmt.sortKey (members.map Prod.fst) := by
  rw [PerType.arranged, hkind]
  exact (ExchangeSort.sort_map PerElmt.sortKey Prod.fst members).symm

namespace PerType

theorem membersSurvive_set {t : PerType α} (hkind : t.kind = .set) :
    t.MembersSurvive ↔ ∀ e ∈ t.elmts, e.bitContaining = false := by
  constructor
  · rintro ⟨pEnc, pDec, henc, -⟩ e he
    by_contra hcontaining
    rw [pEnc?, if_pos (List.any_eq_true.mpr ⟨e, he, by simpa using hcontaining⟩)] at henc
    cases henc
  · intro hnone
    have henc : t.pEnc? = some fun members => setSeqPEnc (t.arranged members) := by
      refine if_neg fun hany => ?_
      obtain ⟨e, he, hcontaining⟩ := List.any_eq_true.mp hany
      rw [hnone e he] at hcontaining
      cases hcontaining
    have hdec : t.pDec? = some (setSeqPDec (ExchangeSort.sort PerElmt.sortKey t.elmts)) := by
      rw [pDec?, hkind]
      rfl
    refine ⟨_, _, henc, hdec, fun members helmts hok bAligned pre => ?_⟩
    -- members are sorted as their elements are, so that both sides have the same order
    rw [← helmts, ← map_fst_arranged hkind]
    exact setSeqPEnc_setSeqPDec (fun p hp => hok p ((arranged_perm t members).subset hp)) pre

theorem not_membersSurvive_sequence {t : PerType α} (hkind : t.kind = .sequence) :
    ¬ t.MembersSurvive := by
  rintro ⟨pEnc, pDec, -, hdec, -⟩
  rw [pDec?, hkind] at hdec
  cases hdec

/-- The index after the last one is an integer that the constraint in use admits. -/
theorem not_alternativesSurvive (t : PerType α) : ¬ t.AlternativesSurvive := by
  intro h
  have hadmits : Satisfies indexRanges (t.elmts.length : ℤ) := Or.inl rfl
  exact absurd ((h.index _).mp hadmits).2 (lt_irrefl _)

theorem canonical_iff {t : PerType α} (hnodup : (t.elmts.map PerElmt.canonicalTag).Nodup) :
    t.Canonical ↔ ∀ e ∈ t.elmts, ∀ e' ∈ t.elmts,
      e.canonicalTag < e'.canonicalTag → e.sortKey < e'.sortKey := by
  refine ExchangeSort.sort_pairwise_iff PerElmt.sortKey (fun e e' h h' => lt_asymm h h')
    (fun e he e' he' hne => ?_) (List.Nodup.of_map _ hnodup)
  rcases lt_trichotomy e.canonicalTag e'.canonicalTag with hlt | heq | hgt
  · exact Or.inl hlt
  · exact absurd (List.inj_on_of_nodup_map hnodup he he' heq) hne
  · exact Or.inr hgt

end PerType

/-- `a [0] BOOLEAN, b [1] BOOLEAN OPTIONAL` -/
def flagElmts : List (PerElmt Bool) :=
  [⟨[⟨.cntx, .prim, 0⟩], false, false, false, PerCodec.asnBool⟩,
    ⟨[⟨.cntx, .prim, 1⟩], false, true, false, PerCodec.asnBool⟩]

end Esnacc.Generated
