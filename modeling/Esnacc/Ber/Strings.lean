import Esnacc.Ber.ConsString
import Esnacc.Ber.Int
import Esnacc.Runtime.Strings

/-!
The contents of OCTET STRING and BIT STRING under the basic encoding rules, and what a
decoded object keeps of the value it held before.
-/

namespace Esnacc

open BitString

/-- `std::string::resize`. -/
def resize (str : List Octet) (n : ℕ) : List Octet := (str ++ List.replicate n 0).take n

namespace AsnOcts

/-- What becomes of the object, and how the call ends. -/
def bDecContent (x : AsnOcts) (tagId : AsnTag) (elmtLen : ℕ) (b : AsnBuf) (bytesDecoded : ℕ) :
    AsnOcts × Except Fault (ℕ × AsnBuf) :=
  if elmtLen = 0 then (x, .ok (bytesDecoded, b))
  else if tagIsCons tagId then
    match (ConsStringDeck.fill 4 elmtLen bytesDecoded).run b with
    | .error e => (x, .error e)
    | .ok ((deck, bytesDecoded), b) =>
        (⟨ConsStringDeck.collapse deck x.mStr⟩, .ok (bytesDecoded, b))
  else if elmtLen = indefiniteLen then
    (x, .error (boundsException "indefinite length on primitive"))
  else
    match AsnBuf.length.run b with
    | .error e => (x, .error e)
    | .ok (left, b) =>
        if left < elmtLen then
          (x, .error (bufferException "GetSeg attempt to read past end of data"))
        else
          match (AsnBuf.getSeg elmtLen).run b with
          | .error e => (⟨overwrite (resize x.mStr elmtLen) 0 b.rest⟩, .error e)
          | .ok (seg, b) => (⟨seg⟩, .ok (bytesDecoded + elmtLen, b))

end AsnOcts

namespace AsnBits

/-- The check of `BDecConsBits`, on all components but the last one. -/
def checkComponents : List (List Octet) → Except Fault Unit
  | [] => .ok ()
  | [] :: _ => .error (.undefinedBehaviour "the first octet of an empty component is read")
  | (unused :: _) :: deck =>
      if unused ≠ 0 then
        .error (except
          "Constructed BIT STRING contains a component with a unused bits value other than 0"
          .decodeError)
      else checkComponents deck

/-- `BDecConsBits`: the components are checked and not stored. -/
def bDecConsBits (elmtLen bytesDecoded : ℕ) : BerM ℕ := do
  let (deck, bytesDecoded) ← ConsStringDeck.fill 3 elmtLen bytesDecoded
  checkComponents deck.dropLast
  return bytesDecoded

/-- The primitive form: the object does not get shorter than it was. -/
def store (x : AsnBits) (iUnusedBitLen : ℕ) (seg : List Octet) : AsnBits where
  bits := overwrite
    (List.replicate ((max x.bitLen (8 * seg.length - iUnusedBitLen) + 7) / 8 + 1) 0) 0 seg
  bitLen := max x.bitLen (8 * seg.length - iUnusedBitLen)
  nblFlag := x.nblFlag
  allocated := by
    rw [length_overwrite, List.length_replicate]
    omega

/-- What becomes of the object, and how the call ends. -/
def bDecContent (x : AsnBits) (tagId : AsnTag) (elmtLen : ℕ) (b : AsnBuf) (bytesDecoded : ℕ) :
    AsnBits × Except Fault (ℕ × AsnBuf) :=
  match AsnBuf.length.run b with
  | .error e => (x, .error e)
  | .ok (left, b) =>
      if elmtLen = indefiniteLen ∨ left < elmtLen then
        (x, .error (memoryException "elmtLen requests for too much data"))
      else if tagIsCons tagId then (x, (bDecConsBits elmtLen bytesDecoded).run b)
      else if elmtLen = 0 then
        (x, .error (boundsException "length problem on decoding content"))
      else
        match AsnBuf.getByte.run b with
        | .error e => (x, .error e)
        | .ok (iUnusedBitLen, b) =>
            if 7 < iUnusedBitLen.toNat then
              (x, .error (boundsException "Length problem - Unused bits > 7"))
            else if elmtLen = 1 ∧ iUnusedBitLen ≠ 0 then
              -- the number of bits wraps, and one octet is allocated for them
              (x.clear, .error (.undefinedBehaviour "there are fewer octets than bits"))
            else
              match (AsnBuf.getSeg (elmtLen - 1)).run b with
              | .error e => (x.store iUnusedBitLen.toNat b.rest, .error e)
              | .ok (seg, b) =>
                  (x.store iUnusedBitLen.toNat seg, .ok (bytesDecoded + elmtLen, b))

end AsnBits

/-! ### What a decoded object keeps -/

/-- The types of the objects that are decoded. -/
inductive Target
  | octs | bits | int
  deriving DecidableEq, Repr

/-- Whatever the object held before, it holds the same afterwards. -/
def Target.Forgets (tagId : AsnTag) (elmtLen : ℕ) (b : AsnBuf) (n : ℕ) : Target → Prop
  | octs => ∀ x y, (AsnOcts.bDecContent x tagId elmtLen b n).1 =
      (AsnOcts.bDecContent y tagId elmtLen b n).1
  | bits => ∀ x y, (AsnBits.bDecContent x tagId elmtLen b n).1.value =
      (AsnBits.bDecContent y tagId elmtLen b n).1.value
  | int => ∀ x y, (AsnInt.bDecContent x elmtLen b n).1.value =
      (AsnInt.bDecContent y elmtLen b n).1.value

theorem AsnOcts.forgets_primitive {tagId : AsnTag} {past rest c : List Octet}
    (htag : tagIsCons tagId = false) (hdefinite : c.length ≠ indefiniteLen) (hc : c.length ≠ 0)
    (hfit : c.length ≤ AsnBuf.bytesRemaining ⟨past, c ++ rest⟩) (n : ℕ) (x : AsnOcts) :
    AsnOcts.bDecContent x tagId c.length ⟨past, c ++ rest⟩ n =
      (⟨c⟩, .ok (n + c.length, ⟨c.reverse ++ past, rest⟩)) := by
  have hseg : (AsnBuf.getSeg c.length).run ⟨past, c ++ rest⟩ = _ := AsnBuf.getSeg_reads past rest c
  simp only [bDecContent, if_neg hc, htag, Bool.false_eq_true, if_false, if_neg hdefinite,
    AsnBuf.length_run, if_neg (Nat.not_lt.mpr hfit), hseg]

/-- What is not decoded from primitive contents that are not empty goes on after the old
octets, or leaves them. -/
theorem AsnOcts.not_forgets {tagId : AsnTag} {elmtLen : ℕ} {b : AsnBuf} {n : ℕ}
    (h : elmtLen = 0 ∨ tagIsCons tagId = true ∨ elmtLen = indefiniteLen ∨
      AsnBuf.bytesRemaining b < elmtLen) : ¬ Target.octs.Forgets tagId elmtLen b n := by
  have hkeep : ∃ os, ∀ x, (bDecContent x tagId elmtLen b n).1.mStr = x.mStr ++ os := by
    by_cases hzero : elmtLen = 0
    · exact ⟨[], fun x => by simp [bDecContent, hzero]⟩
    · cases htag : tagIsCons tagId with
      | true =>
          cases hfill : (ConsStringDeck.fill 4 elmtLen n).run b with
          | error e => exact ⟨[], fun x => by simp [bDecContent, hzero, htag, hfill]⟩
          | ok r =>
              refine ⟨r.1.1.flatten, fun x => ?_⟩
              simp [bDecContent, hzero, htag, hfill, ConsStringDeck.collapse]
      | false =>
          refine ⟨[], fun x => ?_⟩
          simp only [bDecContent, if_neg hzero, htag, Bool.false_eq_true, if_false,
            AsnBuf.length_run, List.append_nil]
          rcases (h.resolve_left hzero).resolve_left (by simp [htag]) with hindef | hshort
          · rw [if_pos hindef]
          · rw [if_pos hshort]
            split <;> rfl
  obtain ⟨os, hos⟩ := hkeep
  intro hforgets
  have hsame := congrArg mStr (hforgets ⟨[]⟩ ⟨[0]⟩)
  rw [hos, hos] at hsame
  exact (List.cons_ne_self 0 os) hsame.symm

/-- What stands in a primitive BIT STRING: the number of unused bits, then the bits. -/
def AsnBits.ValidContents (c : List Octet) : Prop :=
  ∃ unused os, c = unused :: os ∧ unused.toNat ≤ 7 ∧ (os = [] → unused = 0)

theorem AsnBits.bDecContent_primitive {tagId : AsnTag} {past rest os : List Octet}
    {unused : Octet} (htag : tagIsCons tagId = false)
    (hfit : ¬ (os.length + 1 = indefiniteLen ∨
      AsnBuf.bytesRemaining ⟨past, unused :: os ++ rest⟩ < os.length + 1))
    (hunused : unused.toNat ≤ 7) (hempty : os = [] → unused = 0) (n : ℕ) (x : AsnBits) :
    (bDecContent x tagId (unused :: os).length ⟨past, unused :: os ++ rest⟩ n).1 =
      x.store unused.toNat os := by
  have hsize : ¬ (os.length + 1 = 1 ∧ unused ≠ 0) := fun ⟨hone, hne⟩ =>
    hne (hempty (List.length_eq_zero_iff.mp (Nat.succ.inj hone)))
  have hbyte : AsnBuf.getByte.run ⟨past, unused :: os ++ rest⟩ =
      .ok (unused, ⟨unused :: past, os ++ rest⟩) :=
    AsnBuf.getByte_reads past (os ++ rest) unused
  have hseg : (AsnBuf.getSeg os.length).run ⟨unused :: past, os ++ rest⟩ = _ :=
    AsnBuf.getSeg_reads (unused :: past) rest os
  simp only [bDecContent, AsnBuf.length_run, List.length_cons, if_neg hfit, htag,
    Bool.false_eq_true, if_false, Nat.add_one_ne_zero, hbyte, if_neg (Nat.not_lt.mpr hunused),
    if_neg hsize, Nat.add_sub_cancel, hseg]

/-- A BIT STRING never gets shorter than it was, and constructed contents are not
stored. -/
theorem AsnBits.not_forgets {tagId : AsnTag} {past rest c : List Octet} {elmtLen : ℕ}
    (helmt : elmtLen = c.length ∨ elmtLen = indefiniteLen)
    (hvalid : tagIsCons tagId = false → ValidContents c) (n : ℕ) :
    ¬ Target.bits.Forgets tagId elmtLen ⟨past, c ++ rest⟩ n := by
  intro hforgets
  by_cases hkept : tagIsCons tagId = true ∨ elmtLen = indefiniteLen ∨
      AsnBuf.bytesRemaining ⟨past, c ++ rest⟩ < elmtLen
  · have hsame : ∀ x, (bDecContent x tagId elmtLen ⟨past, c ++ rest⟩ n).1 = x := by
      intro x
      simp only [bDecContent, AsnBuf.length_run]
      rcases hkept with htag | hshort
      · simp only [htag, if_true]
        split <;> rfl
      · simp only [if_pos hshort]
    have hvalue := hforgets ⟨[], 0, false, le_rfl⟩ ⟨[128], 1, false, by decide⟩
    rw [hsame, hsame] at hvalue
    exact absurd hvalue (by decide)
  · obtain ⟨htag, hfit⟩ := not_or.mp hkept
    obtain rfl := helmt.resolve_right (not_or.mp hfit).1
    rw [Bool.not_eq_true] at htag
    obtain ⟨unused, os, rfl, hunused, hempty⟩ := hvalid htag
    -- one object was longer than all the octets that are read, the other was empty
    have hvalue := congrArg List.length (hforgets ⟨[], 0, false, le_rfl⟩
      ⟨List.replicate (os.length + 1) 0, 8 * os.length + 8, false, by simp; omega⟩)
    rw [bDecContent_primitive htag hfit hunused hempty,
      bDecContent_primitive htag hfit hunused hempty, length_value, length_value] at hvalue
    simp only [store] at hvalue
    omega

/-- Only an INTEGER, and an OCTET STRING whose contents are primitive and not empty, lose
the value the object held before. -/
theorem forgets_iff (past rest : List Octet) {c : List Octet} (tagId : AsnTag) {elmtLen : ℕ}
    (helmt : elmtLen = c.length ∨ elmtLen = indefiniteLen) (n : ℕ) (target : Target)
    (hvalid : target = .bits → tagIsCons tagId = false → AsnBits.ValidContents c) :
    target.Forgets tagId elmtLen ⟨past, c ++ rest⟩ n ↔
      target = .int ∨ (target = .octs ∧ tagIsCons tagId = false ∧ elmtLen ≠ indefiniteLen ∧
        elmtLen ≠ 0 ∧ elmtLen ≤ AsnBuf.bytesRemaining ⟨past, c ++ rest⟩) := by
  cases target with
  | octs =>
      simp only [reduceCtorEq, false_or, true_and]
      constructor
      · intro hforgets
        by_contra hnot
        refine AsnOcts.not_forgets ?_ hforgets
        cases htag : tagIsCons tagId with
        | true => exact .inr (.inl rfl)
        | false =>
            simp only [htag, true_and, not_and_or, not_ne_iff, not_le] at hnot
            rcases hnot with hindef | hzero | hshort
            · exact .inr (.inr (.inl hindef))
            · exact .inl hzero
            · exact .inr (.inr (.inr hshort))
      · rintro ⟨htag, hdefinite, hne, hfit⟩ x y
        obtain rfl := helmt.resolve_right hdefinite
        rw [AsnOcts.forgets_primitive htag hdefinite hne hfit,
          AsnOcts.forgets_primitive htag hdefinite hne hfit]
  | bits =>
      refine ⟨fun hforgets => ?_, fun h => ?_⟩
      · exact absurd hforgets (AsnBits.not_forgets helmt (hvalid rfl) n)
      · rcases h with h | ⟨h, -⟩ <;> cases h
  | int => exact ⟨fun _ => .inl rfl, fun _ _ _ => rfl⟩

theorem forgets_octs : Target.octs.Forgets 0x04000000 2 ⟨[], [7, 9] ++ []⟩ 0 :=
  (forgets_iff [] [] (c := [7, 9]) 0x04000000 (.inl rfl) 0 .octs (fun h => nomatch h)).mpr
    (.inr ⟨rfl, by decide, by decide, by decide, by decide⟩)

/-- An empty OCTET STRING leaves the octets of the one before it. -/
theorem not_forgets_octs :
    ¬ ∀ (target : Target) (tagId : AsnTag) (c rest : List Octet) (n : ℕ),
      (target = .bits → tagIsCons tagId = false → AsnBits.ValidContents c) →
        target.Forgets tagId c.length ⟨[], c ++ rest⟩ n := by
  intro h
  have hsame := h .octs 0x04000000 [] [] 0 (fun h => nomatch h) ⟨[]⟩ ⟨[41]⟩
  exact absurd hsame (by decide)

end Esnacc
