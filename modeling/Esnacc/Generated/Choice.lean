import Esnacc.Generated.ElementRoundTrip
import Esnacc.Generated.Set

/-!
The codec of a CHOICE. Its key tag has been read when `BDecContent` is called, together with the
length behind it, so that a CHOICE inside of another one, or of a SEQUENCE, can be entered by the
tag of its alternative.
-/

namespace Esnacc.Generated

open BitString Tlv

variable {α : Type}

/-- What a CHOICE holds: the alternative that `choiceId` names, or an unknown one. -/
inductive ChoiceValue (α : Type)
  | alternative (choiceId : ℕ) (x : α)
  | extension (extAny : List Octet)
  deriving DecidableEq

/-- A CHOICE with the tags in front of it and its alternatives. -/
structure ChoiceType (α : Type) where
  tags : List BerTag
  elmts : List (BerElmt α)

namespace BerElmt

/-- The element as the code of a CHOICE reads it: every open type decodes its own tag, and nothing
is OPTIONAL. -/
def inChoice (e : BerElmt α) : BerElmt α :=
  { e with kind := if e.kind = .any then .anyDefinedBy else e.kind, optional := false,
           hasDefault := false, lenient := none }

/-- A branch of the `switch` in `BEncContent`. For an `ANY DEFINED BY` no call is printed, so that
the tags stand around nothing. -/
def bEncAlternative (e : BerElmt α) (x : α) : List Octet :=
  if e.kind = .anyDefinedBy then bEncTags e.hasShortLen e.tags [] else e.bEncElmt x

/-- A branch of the `switch` in `BDecContent`: the first tag and its length have been read. -/
def bDecAlternative (e : BerElmt α) (tag : AsnTag) (elmtLen0 n : ℕ) : BerM (α × ℕ) := do
  let (tag, elmtLens, n) ← (if e.stoleChoiceTags then pure (tag, [elmtLen0], n)
    else bDecTags e.tags.tail tag [elmtLen0] n : BerM (AsnTag × List ℕ × ℕ))
  let (x, _, n) ← e.inChoice.bDecContents tag elmtLens n
  return (x, n)

end BerElmt

namespace ChoiceType

def isExtensible (t : ChoiceType α) : Bool := t.elmts.any fun e => e.kind = .extension

/-- `BEncContent`. -/
def bEncContent (t : ChoiceType α) : ChoiceValue α → Except Fault (List Octet)
  | .alternative choiceId x =>
      match t.elmts[choiceId]? with
      | some e => .ok (e.bEncAlternative x)
      | none => .error (except "Choice is empty" .encodeError)
  | .extension extAny =>
      if t.isExtensible then .ok extAny else .error (except "Choice is empty" .encodeError)

/-- `BDecContent`. -/
def bDecContent (t : ChoiceType α) (tag : AsnTag) (elmtLen0 n : ℕ) : BerM (ChoiceValue α × ℕ) :=
  match findCase tag t.elmts 0 with
  | some (i, e) => do
      let (x, n) ← e.bDecAlternative tag elmtLen0 n
      return (.alternative i x, n)
  | none =>
      if t.isExtensible then do
        let (extAny, n) ← AsnAny.bDecContent tag elmtLen0 n
        return (.extension extAny, n)
      else throw (invalidTagException "")

/-- The tags in front of a CHOICE, which are constructed. -/
def consTags (t : ChoiceType α) : List BerTag := t.tags.map fun tg => { tg with form := .cons }

/-- `BEnc`. -/
def bEnc (t : ChoiceType α) (v : ChoiceValue α) : Except Fault (List Octet) := do
  let content ← t.bEncContent v
  return BerElmt.bEncTags false t.consTags content

/-- `BDec`. -/
def bDec (t : ChoiceType α) (n : ℕ) : BerM (ChoiceValue α × ℕ) := do
  let (_, extraLens, n) ← BerElmt.bDecTags t.consTags 0 [] n
  let (tag, n) ← bDecTag n
  let (elmtLen, n) ← bDecLen n
  let (v, n) ← t.bDecContent tag elmtLen n
  let n ← BerElmt.bDecEocs extraLens n
  return (v, n)

end ChoiceType

/-! ### Explicit tags in both forms -/

/-- Tags around contents, of which those with a mark have an open length and are closed by two
zero octets. -/
def bEncForms (isShort : Bool) : List (BerTag × Bool) → List Octet → List Octet
  | [], content => content
  | (tg, true) :: ts, content =>
      tg.octets ++ (openLength :: (bEncForms isShort ts content ++ endOfContents))
  | (tg, false) :: ts, content =>
      tg.octets ++ (bEncLen tg.isCons isShort (bEncForms isShort ts content).length ++
        bEncForms isShort ts content)

/-- The encoders leave no length open. -/
theorem bEncForms_definite (isShort : Bool) (tags : List BerTag) (content : List Octet) :
    bEncForms isShort (tags.map fun tg => (tg, false)) content =
      BerElmt.bEncTags isShort tags content := by
  induction tags with
  | nil => rfl
  | cons tg tags ih =>
      rw [List.map_cons, bEncForms, ih]
      rfl

/-- The number of open lengths. -/
def opens (ts : List (BerTag × Bool)) : ℕ := ts.countP Prod.snd

/-- The octets of a length. -/
def formLength (isShort : Bool) (tg : BerTag) (isOpen : Bool) (len : ℕ) : List Octet :=
  if isOpen then [openLength] else bEncLen tg.isCons isShort len

/-- A length as it is decoded. -/
def formLen (isOpen : Bool) (len : ℕ) : ℕ := if isOpen then indefiniteLen else len

/-- The tags and lengths in front of the contents. -/
def formHeaders (isShort : Bool) : List (BerTag × Bool) → List Octet → List Octet
  | [], _ => []
  | (tg, isOpen) :: ts, content =>
      tg.octets ++ (formLength isShort tg isOpen (bEncForms isShort ts content).length ++
        formHeaders isShort ts content)

/-- The lengths as they are decoded, the innermost one first. -/
def formLens (isShort : Bool) : List (BerTag × Bool) → List Octet → List ℕ → List ℕ
  | [], _, lens => lens
  | (_, isOpen) :: ts, content, lens =>
      formLens isShort ts content (formLen isOpen (bEncForms isShort ts content).length :: lens)

/-- All closing octets are zero. -/
theorem bEncForms_eq (isShort : Bool) (ts : List (BerTag × Bool)) (content : List Octet) :
    bEncForms isShort ts content =
      formHeaders isShort ts content ++ (content ++ List.replicate (2 * opens ts) 0) := by
  induction ts with
  | nil => exact (List.append_nil content).symm
  | cons t ts ih =>
      obtain ⟨tg, isOpen⟩ := t
      cases isOpen with
      | true =>
          have hopens : 2 * opens ((tg, true) :: ts) = 2 * opens ts + 2 := by
            rw [opens, opens, List.countP_cons_of_pos rfl, Nat.mul_add]
          have hzeros : List.replicate (2 * opens ts + 2) (0 : Octet) =
              List.replicate (2 * opens ts) 0 ++ endOfContents := List.replicate_add _ _ _
          rw [bEncForms, formHeaders, formLength, if_pos rfl, hopens, hzeros]
          conv_lhs => rw [ih]
          simp only [List.append_assoc, List.cons_append, List.nil_append]
      | false =>
          have hopens : opens ((tg, false) :: ts) = opens ts := by
            rw [opens, opens, List.countP_cons_of_neg (by simp)]
          rw [bEncForms, formHeaders, formLength, if_neg Bool.false_ne_true, hopens,
            List.append_assoc, List.append_assoc, ← ih]

theorem length_bEncForms_tail_le (isShort : Bool) (t : BerTag × Bool) (ts : List (BerTag × Bool))
    (content : List Octet) :
    (bEncForms isShort ts content).length ≤ (bEncForms isShort (t :: ts) content).length := by
  obtain ⟨tg, isOpen⟩ := t
  cases isOpen with
  | true =>
      rw [bEncForms, List.length_append, List.length_cons, List.length_append]
      omega
  | false =>
      rw [bEncForms, List.length_append, List.length_append]
      omega

theorem count_formLens {isShort : Bool} {ts : List (BerTag × Bool)} {content : List Octet}
    (hlen : (bEncForms isShort ts content).length < 2 ^ 32) (lens : List ℕ) :
    (formLens isShort ts content lens).count indefiniteLen =
      opens ts + lens.count indefiniteLen := by
  induction ts generalizing lens with
  | nil => exact (Nat.zero_add _).symm
  | cons t ts ih =>
      obtain ⟨tg, isOpen⟩ := t
      have hle := length_bEncForms_tail_le isShort (tg, isOpen) ts content
      rw [formLens, ih (hle.trans_lt hlen)]
      cases isOpen with
      | true =>
          rw [formLen, if_pos rfl, List.count_cons_self, opens, opens,
            List.countP_cons_of_pos rfl]
          omega
      | false =>
          have hlt : (bEncForms isShort ts content).length ≠ indefiniteLen :=
            (hle.trans_lt (hlen.trans (by decide))).ne
          rw [formLen, if_neg Bool.false_ne_true, List.count_cons_of_ne hlt, opens, opens,
            List.countP_cons_of_neg (by simp)]

/-- One zero octet is read for each open length, and two are counted. -/
theorem bDecEocs_count (lens : List ℕ) (past rest : List Octet) (n : ℕ) :
    Cursor.Reads past rest (BerElmt.bDecEocs lens n)
      (List.replicate (lens.count indefiniteLen) 0) (n + 2 * lens.count indefiniteLen) := by
  induction lens generalizing past n with
  | nil => exact Cursor.Reads.pure _ _ _
  | cons l lens ih =>
      rw [BerElmt.bDecEocs]
      by_cases hl : l = indefiniteLen
      · subst hl
        rw [if_pos rfl, List.count_cons_self, List.replicate_succ, Nat.mul_succ,
          show n + (2 * lens.count indefiniteLen + 2) = n + 2 + 2 * lens.count indefiniteLen by omega]
        exact (bDecEoc_reads past _ n).bind (ih _ _)
      · rw [if_neg hl, List.count_cons_of_ne hl]
        exact ih past n

theorem formLength_reads {isShort : Bool} {tg : BerTag} {isOpen : Bool} {len : ℕ}
    (hlen : len < 2 ^ 32) (hshort : tg.isCons = false → isShort = true → len < 128)
    (past rest : List Octet) (n : ℕ) :
    Cursor.Reads past rest (bDecLen n) (formLength isShort tg isOpen len)
      (formLen isOpen len, n + (formLength isShort tg isOpen len).length) := by
  cases isOpen with
  | true => exact bDecLen_openLength past rest n
  | false =>
      exact bDecLen_reads past rest (isLengthOf_bEncLen hlen hshort) (length_bEncLen_le _ _ _) n

/-- Only the innermost tag can stand in front of a short length. -/
theorem short_of_last {isShort : Bool} {tg : BerTag} {ts : List (BerTag × Bool)}
    {content : List Octet} (hcons : ∀ t ∈ (tg :: ts.map Prod.fst).dropLast, t.form = .cons)
    (hshort : isShort = true → content.length < 128) :
    tg.isCons = false → isShort = true → (bEncForms isShort ts content).length < 128 := by
  intro hprim hs
  cases ts with
  | nil => exact hshort hs
  | cons t ts =>
      have hform := hcons tg (by rw [List.map_cons, List.dropLast_cons_cons]; exact List.mem_cons_self)
      rw [BerTag.isCons, hform] at hprim
      cases hprim

theorem dropLast_tail {tg : BerTag} {tags : List BerTag}
    (hcons : ∀ t ∈ (tg :: tags).dropLast, t.form = .cons) : ∀ t ∈ tags.dropLast, t.form = .cons := by
  intro t ht
  cases tags with
  | nil => cases ht
  | cons tg' tags => exact hcons t (by rw [List.dropLast_cons_cons]; exact List.mem_cons_of_mem _ ht)

/-- All tags are found, whichever form their lengths have. -/
theorem bDecTags_forms {isShort : Bool} {ts : List (BerTag × Bool)} {content : List Octet}
    (hprinted : ∀ tg ∈ ts.map Prod.fst, tg.Printed)
    (hcons : ∀ tg ∈ (ts.map Prod.fst).dropLast, tg.form = .cons)
    (hshort : isShort = true → content.length < 128)
    (hlen : (bEncForms isShort ts content).length < 2 ^ 32) (tag1 : AsnTag) (lens : List ℕ)
    (past rest : List Octet) (n : ℕ) :
    Cursor.Reads past rest (BerElmt.bDecTags (ts.map Prod.fst) tag1 lens n)
      (formHeaders isShort ts content)
      ((ts.map Prod.fst).getLast?.elim tag1 fun tg => tagOf tg.octets,
        formLens isShort ts content lens, n + (formHeaders isShort ts content).length) := by
  induction ts generalizing past n tag1 lens with
  | nil => exact Cursor.Reads.pure _ _ _
  | cons t ts ih =>
      obtain ⟨tg, isOpen⟩ := t
      rw [List.map_cons] at hprinted hcons ⊢
      obtain ⟨htg, hprinted⟩ := List.forall_mem_cons.mp hprinted
      have hle := length_bEncForms_tail_le isShort (tg, isOpen) ts content
      have htag := bDecTag_reads past
        (formLength isShort tg isOpen (bEncForms isShort ts content).length ++
          formHeaders isShort ts content ++ rest) htg.isIdentifier_octets htg.length_octets_le n
      have hlength := @formLength_reads isShort tg isOpen _ (hle.trans_lt hlen)
        (short_of_last hcons hshort) (tg.octets.reverse ++ past)
        (formHeaders isShort ts content ++ rest) (n + tg.octets.length)
      have hrest := ih hprinted (dropLast_tail hcons) (hle.trans_lt hlen) (tagOf tg.octets)
        (formLen isOpen (bEncForms isShort ts content).length :: lens)
        ((formLength isShort tg isOpen (bEncForms isShort ts content).length).reverse ++
          (tg.octets.reverse ++ past))
        (n + tg.octets.length +
          (formLength isShort tg isOpen (bEncForms isShort ts content).length).length)
      rw [BerElmt.bDecTags, formHeaders, formLens]
      refine Cursor.Reads.bind htag ?_
      dsimp only
      rw [if_pos htg.accepts_tagOf]
      refine Cursor.Reads.bind hlength ?_
      rw [List.length_append, List.length_append, ← Nat.add_assoc, ← Nat.add_assoc]
      have hlast : ((tg :: ts.map Prod.fst).getLast?.elim tag1 fun tg => tagOf tg.octets) =
          (ts.map Prod.fst).getLast?.elim (tagOf tg.octets) fun tg => tagOf tg.octets := by
        cases ts with
        | nil => rfl
        | cons t' ts =>
            rw [List.map_cons, List.getLast?_cons_cons]
            cases h : (t'.1 :: ts.map Prod.fst).getLast? <;> simp at h ⊢
      rw [hlast]
      exact hrest

end Esnacc.Generated
