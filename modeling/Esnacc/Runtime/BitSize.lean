import Esnacc.Runtime.Strings

/-!
The size of a bit string. A bit string that grows is copied as text, up to an octet that is zero,
and what is copied includes the bits of the last octet that did not belong to it; one that shrinks
keeps its octets.
-/

namespace Esnacc

open BitString

/-- `strncpy`, which stands for `strncpy_s`: what is copied ends in front of a zero octet, and
zeros follow up to the amount. -/
def strncpy (dest source : List Octet) (amount : ℕ) : List Octet :=
  let copied := (source.take amount).takeWhile (· ≠ 0)
  overwrite dest 0 (copied ++ List.replicate (amount - copied.length) 0)

namespace AsnBits

/-- The bit at a position of the octets, the first one being the most significant. -/
def storedBit (x : AsnBits) (bit : ℕ) : Bool := (x.bits.getD (bit / 8) 0).getMsbD (bit % 8)

/-- `GetBit`. -/
def getBit (x : AsnBits) (bit : ℕ) : Bool := if bit < x.bitLen then x.storedBit bit else false

/-- The octets that `SetSize` allocates and fills for a string that grows. -/
def grown (x : AsnBits) (newsize : ℕ) : List Octet :=
  let iSize := (newsize + 7) / 8
  let tmpBits := List.replicate iSize 0
  let tmpBits := if x.bits ≠ [] then strncpy tmpBits x.bits x.length else tmpBits
  strncpy (List.replicate (iSize + 1) 0) tmpBits iSize

@[simp] theorem length_grown (x : AsnBits) (newsize : ℕ) :
    (x.grown newsize).length = (newsize + 7) / 8 + 1 := by
  simp only [grown, strncpy, length_overwrite, List.length_replicate]

/-- `SetSize`. -/
def setSize (x : AsnBits) (newsize : ℕ) : AsnBits where
  bits := if x.bitLen < newsize then x.grown newsize else x.bits
  bitLen := newsize
  nblFlag := x.nblFlag
  allocated := by
    have hx := x.allocated
    split
    · rw [length_grown]
      omega
    · omega

@[simp] theorem bits_setSize (x : AsnBits) (newsize : ℕ) :
    (x.setSize newsize).bits = if x.bitLen < newsize then x.grown newsize else x.bits := rfl

/-- The string has the new size, and of its bits those that were set and are not cut off. -/
def KeepsBits (x : AsnBits) (newsize : ℕ) : Prop :=
  (x.setSize newsize).bitLen = newsize ∧
    ∀ bit, (x.setSize newsize).getBit bit = (x.getBit bit && decide (bit < newsize))

/-- The number of octets in front of the first one of the string that is zero. -/
def zeroOctet (x : AsnBits) : ℕ := ((x.bits.take x.length).takeWhile (· ≠ 0)).length

/-- Where the string grows, no bit of it is set behind a zero octet, and none behind it, up to the
new size, in the octets in front of that. -/
def Growable (x : AsnBits) (newsize : ℕ) : Prop :=
  x.bitLen < newsize →
    (∀ bit < x.bitLen, x.zeroOctet ≤ bit / 8 → x.storedBit bit = false) ∧
      ∀ bit < newsize, x.bitLen ≤ bit → bit / 8 < x.zeroOctet → x.storedBit bit = false

/-- Every size of the list is given to a string that can take it. -/
def GrowableAll : AsnBits → List ℕ → Prop
  | _, [] => True
  | x, newsize :: sizes => x.Growable newsize ∧ GrowableAll (x.setSize newsize) sizes

/-- What is copied to octets that are zero ends in front of the first zero octet. -/
theorem strncpy_zeros (source : List Octet) {n m : ℕ} (h : n ≤ m) :
    strncpy (List.replicate m 0) source n =
      (source.take n).takeWhile (· ≠ 0) ++
        List.replicate (m - ((source.take n).takeWhile (· ≠ 0)).length) 0 := by
  have hle : ((source.take n).takeWhile (· ≠ 0)).length ≤ n :=
    (List.takeWhile_prefix _).length_le.trans (List.length_take_le n source)
  rw [strncpy]
  generalize (source.take n).takeWhile (· ≠ 0) = copied at hle ⊢
  have hsplit : List.replicate m (0 : Octet) =
      [] ++ (List.replicate n 0 ++ List.replicate (m - n) 0) := by
    rw [List.nil_append, List.replicate_append_replicate, Nat.add_sub_cancel' h]
  have hover := overwrite_append [] (List.replicate n 0)
    (copied ++ List.replicate (n - copied.length) 0) (List.replicate (m - n) 0) (by simp; omega)
  rw [hsplit]
  refine hover.trans ?_
  rw [List.nil_append, List.append_assoc, List.replicate_append_replicate]
  congr 2
  omega

/-- Copying once more changes nothing. -/
theorem takeWhile_append_zeros {os : List Octet} (h : ∀ o ∈ os, o ≠ 0) (n : ℕ) :
    (os ++ List.replicate n 0).takeWhile (· ≠ 0) = os := by
  rw [List.takeWhile_append_of_pos (by simpa using h)]
  cases n <;> simp [List.replicate_succ]

/-- What the octets of a string that has grown begin with. -/
theorem grown_eq {x : AsnBits} {newsize : ℕ} (h : x.bitLen < newsize) :
    x.grown newsize = (x.bits.take x.length).takeWhile (· ≠ 0) ++
      List.replicate ((newsize + 7) / 8 + 1 - x.zeroOctet) 0 := by
  have hsize : x.length ≤ (newsize + 7) / 8 := by
    rw [length]
    omega
  have hle : x.zeroOctet ≤ (newsize + 7) / 8 :=
    ((List.takeWhile_prefix _).length_le.trans (List.length_take_le _ _)).trans hsize
  have hne : ∀ o ∈ (x.bits.take x.length).takeWhile (· ≠ 0), o ≠ 0 := fun o ho => by
    simpa using List.mem_takeWhile_imp ho
  have htmp : (if x.bits ≠ [] then
      strncpy (List.replicate ((newsize + 7) / 8) 0) x.bits x.length
      else List.replicate ((newsize + 7) / 8) 0) =
        (x.bits.take x.length).takeWhile (· ≠ 0) ++
          List.replicate ((newsize + 7) / 8 - x.zeroOctet) 0 := by
    split
    · exact strncpy_zeros x.bits hsize
    · next hnull =>
        have hbits : x.bits = [] := not_not.mp hnull
        simp [zeroOctet, hbits]
  have htake : ((x.bits.take x.length).takeWhile (· ≠ 0) ++
      List.replicate ((newsize + 7) / 8 - x.zeroOctet) 0).take ((newsize + 7) / 8) =
        (x.bits.take x.length).takeWhile (· ≠ 0) ++
          List.replicate ((newsize + 7) / 8 - x.zeroOctet) 0 := by
    refine List.take_of_length_le ?_
    rw [List.length_append, List.length_replicate]
    show x.zeroOctet + _ ≤ _
    omega
  simp only [grown, htmp]
  rw [strncpy_zeros _ (Nat.le_succ _), htake, takeWhile_append_zeros hne]
  rfl

theorem storedBit_setSize {x : AsnBits} {newsize : ℕ} (h : x.bitLen < newsize) (bit : ℕ) :
    (x.setSize newsize).storedBit bit =
      if bit / 8 < x.zeroOctet then x.storedBit bit else false := by
  have hbits : (x.setSize newsize).bits = (x.bits.take x.length).takeWhile (· ≠ 0) ++
      List.replicate ((newsize + 7) / 8 + 1 - x.zeroOctet) 0 := by
    rw [bits_setSize, if_pos h, grown_eq h]
  have hprefix : (x.bits.take x.length).takeWhile (· ≠ 0) <+: x.bits :=
    (List.takeWhile_prefix _).trans (List.take_prefix _ _)
  rw [storedBit, hbits]
  split
  · next hlt =>
      obtain ⟨rest, hrest⟩ := hprefix
      have hlt' : bit / 8 < ((x.bits.take x.length).takeWhile (· ≠ 0)).length := hlt
      have hget : x.bits.getD (bit / 8) 0 =
          ((x.bits.take x.length).takeWhile (· ≠ 0)).getD (bit / 8) 0 := by
        conv_lhs => rw [← hrest]
        exact List.getD_append _ _ _ _ hlt'
      rw [List.getD_append _ _ _ _ hlt', storedBit, hget]
  · next hge =>
      rw [List.getD_append_right _ _ _ _ (Nat.not_lt.mp hge)]
      rw [List.getD_eq_getElem?_getD, List.getElem?_replicate]
      split <;> simp

/-- A bit of the string after it has grown. -/
theorem getBit_setSize {x : AsnBits} {newsize : ℕ} (h : x.bitLen < newsize) (bit : ℕ) :
    (x.setSize newsize).getBit bit =
      if bit < newsize ∧ bit / 8 < x.zeroOctet then x.storedBit bit else false := by
  rw [getBit, storedBit_setSize h]
  by_cases hin : bit < newsize <;> simp [setSize, hin]

theorem getBit_setSize_of_le {x : AsnBits} {newsize : ℕ} (h : newsize ≤ x.bitLen) (bit : ℕ) :
    (x.setSize newsize).getBit bit = (x.getBit bit && decide (bit < newsize)) := by
  have hbits : (x.setSize newsize).storedBit bit = x.storedBit bit := by
    rw [storedBit, storedBit, bits_setSize, if_neg (Nat.not_lt.mpr h)]
  rw [getBit, getBit, hbits]
  by_cases hin : bit < newsize
  · have hold : bit < x.bitLen := hin.trans_le h
    simp [setSize, hin, hold]
  · simp [setSize, hin]

/-- A size is taken without loss exactly where the string is growable to it. -/
theorem keepsBits_iff (x : AsnBits) (newsize : ℕ) : x.KeepsBits newsize ↔ x.Growable newsize := by
  by_cases hgrow : x.bitLen < newsize
  · constructor
    · rintro ⟨-, hkeep⟩ -
      refine ⟨fun bit hbit hzero => ?_, fun bit hbit hold hbefore => ?_⟩
      · have heq := hkeep bit
        rw [getBit_setSize hgrow, if_neg (fun h => Nat.not_lt.mpr hzero h.2), getBit, if_pos hbit,
          decide_eq_true (hbit.trans hgrow), Bool.and_true] at heq
        exact heq.symm
      · have heq := hkeep bit
        rw [getBit_setSize hgrow, if_pos ⟨hbit, hbefore⟩, getBit, if_neg (Nat.not_lt.mpr hold)]
          at heq
        exact heq
    · intro hcond
      obtain ⟨hlost, hstale⟩ := hcond hgrow
      refine ⟨rfl, fun bit => ?_⟩
      rw [getBit_setSize hgrow, getBit]
      by_cases hin : bit < newsize
      · by_cases hold : bit < x.bitLen
        · by_cases hbefore : bit / 8 < x.zeroOctet
          · simp [hin, hold, hbefore]
          · simp [hin, hold, hbefore, hlost bit hold (Nat.not_lt.mp hbefore)]
        · by_cases hbefore : bit / 8 < x.zeroOctet
          · simp [hin, hold, hbefore, hstale bit hin (Nat.not_lt.mp hold) hbefore]
          · simp [hin, hold, hbefore]
      · have hold : ¬ bit < x.bitLen := fun h => hin (h.trans hgrow)
        simp [hin, hold]
  · exact iff_of_true ⟨rfl, getBit_setSize_of_le (Nat.not_lt.mp hgrow)⟩ (fun h => absurd h hgrow)

/-- After any sizes that the string can take, a bit is set that was set and has never been cut
off. -/
theorem getBit_foldl_setSize (sizes : List ℕ) (x : AsnBits) (h : x.GrowableAll sizes) (bit : ℕ) :
    (sizes.foldl setSize x).getBit bit =
      (x.getBit bit && sizes.all fun newsize => decide (bit < newsize)) := by
  induction sizes generalizing x with
  | nil => simp
  | cons newsize sizes ih =>
      rw [List.foldl_cons, ih _ h.2, ((keepsBits_iff x newsize).mpr h.1).2, List.all_cons,
        Bool.and_assoc]

/-- When `SetSize` keeps the bits, and what follows for any sequence of sizes. -/
theorem setSize_correct_iff (x : AsnBits) :
    (∀ newsize, x.KeepsBits newsize ↔ x.Growable newsize) ∧
      ∀ sizes, x.GrowableAll sizes → ∀ bit,
        (sizes.foldl setSize x).getBit bit =
          (x.getBit bit && sizes.all fun newsize => decide (bit < newsize)) :=
  ⟨keepsBits_iff x, fun sizes h => getBit_foldl_setSize sizes x h⟩

theorem setSize_correct_at :
    ([1, 16].foldl setSize (⟨[0x80], 4, false, by decide⟩ : AsnBits)).getBit 2 =
      ((⟨[0x80], 4, false, by decide⟩ : AsnBits).getBit 2 &&
        [1, 16].all fun newsize => decide (2 < newsize)) :=
  (setSize_correct_iff ⟨[0x80], 4, false, by decide⟩).2 [1, 16]
    ⟨fun h => absurd h (by decide), fun _ => ⟨by decide, by decide⟩, trivial⟩ 2

/-- The string of fifteen zeros and a one loses the one. -/
theorem not_keepsBits : ¬ ∀ (x : AsnBits) (newsize : ℕ), x.KeepsBits newsize := by
  intro hall
  have hbit := (hall ⟨[0x00, 0x01], 16, false, by decide⟩ 17).2 15
  exact absurd hbit (by decide)

end AsnBits

end Esnacc
