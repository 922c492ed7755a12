import Esnacc.CLib.ExpBuf

/-!
Reading from the last block of an expanding buffer. `ExpBufResetInReadMode` leaves the
handle there, so this is the only place reads start from. The conversions of lengths to
`int` decide which reads are right, and `ExpBufPeekCopy` returns nothing where it would
have to reach the end of the data.
-/

namespace Esnacc.CLib

open BitString

/-! ### Which reads are right -/

/-- A segment of length `len` is taken as it should when `left` octets are left. -/
def SegFits (len left : ℕ) : Prop :=
  left = 0 ∨ left ≤ throughInt len ∧ left ≤ len ∨ throughInt len < left ∧ len ≤ left

/-- So many octets are copied as they should, and the end of the data is noticed exactly if
there are fewer. -/
def CopyFits (len left : ℕ) : Prop :=
  left = throughInt len ∧ len = left ∨ left < throughInt len ∧ left < len ∨
    throughInt len < left ∧ throughInt len ≤ len ∧ len ≤ left

namespace Read

def Fits (s : Stream) : Read → Prop
  | getByte => True
  | getSeg len => SegFits len s.rest.length
  | copy len => s.readError = true ∧ s.rest = [] ∨ CopyFits len s.rest.length
  | skip len => SegFits len s.rest.length
  | peekCopy len => s.rest = [] ∨ len < s.rest.length

/-- What a read leaves that takes as much as it may. -/
def leaves (s : Stream) : Read → Stream
  | getByte => ⟨s.rest.tail, s.readError || decide (s.rest = [])⟩
  | getSeg len => ⟨s.rest.drop len, s.readError⟩
  | copy len => ⟨s.rest.drop len, s.readError || decide (s.rest.length < len)⟩
  | skip len => ⟨s.rest.drop len, s.readError⟩
  | peekCopy _ => s

/-- Every read of a sequence is right where it is made. -/
def AllFit : Stream → List Read → Prop
  | _, [] => True
  | s, r :: rs => r.Fits s ∧ AllFit (r.leaves s) rs

end Read

/-- A length with bit 31 clear and nothing above it is not changed. -/
theorem throughInt_eq {len : ℕ} (h : len < 2 ^ 31) : throughInt len = len := by
  rw [throughInt, if_pos (by omega)]
  omega

namespace ExpBuf

/-- A buffer at its last block, of which `xs` has not been read. -/
def tail (prevs : List Block) (k : Block) (xs : List Octet) (e : Bool) : ExpBuf :=
  ⟨prevs, { k with unread := xs, readError := e }, []⟩

variable {prevs : List Block} {k : Block} {xs : List Octet} {e : Bool}

@[simp] theorem unread_tail : (tail prevs k xs e).unread = xs := by simp [unread, tail]

@[simp] theorem setReadError_tail : (tail prevs k xs e).setReadError = tail prevs k xs true := rfl

theorem tail_refines_iff {s : Stream} : (tail prevs k xs e).Refines s ↔ s = ⟨xs, e⟩ := by
  constructor
  · intro h
    have hrest : xs = s.rest := by simpa using h.unread
    have herror : e = s.readError := h.readError
    rw [hrest, herror]
  · intro h
    subst h
    exact ⟨by simp, rfl⟩

theorem getByte_tail : (tail prevs k xs e).getByte =
    match xs with
    | [] => (0, tail prevs k [] true)
    | o :: rest => (o, tail prevs k rest e) := by
  cases xs with
  | nil => rfl
  | cons o rest =>
      show (o, if atEod _ then toNext _ else _) = _
      split <;> rfl

theorem getSeg_tail_nil (len : ℕ) :
    (tail prevs k [] e).getSeg len = .ok (none, tail prevs k [] e) := rfl

theorem getSeg_tail (hne : xs ≠ []) (len : ℕ) : (tail prevs k xs e).getSeg len =
    if xs.length ≤ throughInt len then .ok (some xs, tail prevs k [] e)
    else if xs.length < len then .error .outOfBounds
    else .ok (some (xs.take len), tail prevs k (xs.drop len) e) := by
  show (if xs = [] then _ else _) = _
  rw [if_neg hne]
  rfl

/-- The last pass of the loop of `ExpBufCopy`: nothing is left, or nothing is asked for. -/
theorem copyLoop_tail_end {len : ℕ} {got : List Octet} (hgot : got.length ≤ len)
    (hthrough : got.length < throughInt len) (h : xs = [] ∨ got.length = len) (fuel : ℕ) :
    copyLoop len (fuel + 1) (tail prevs k xs e) got = .ok (got, tail prevs k xs true) := by
  have hseg : ∃ seg, (tail prevs k xs e).getSeg (len - got.length) =
      .ok (seg, tail prevs k xs e) ∧ seg.getD [] = [] := by
    by_cases hnil : xs = []
    · subst hnil
      exact ⟨none, rfl, rfl⟩
    · have hdone : len - got.length = 0 := by
        rcases h with h | h
        · exact absurd h hnil
        · omega
      have hpos := List.length_pos_of_ne_nil hnil
      refine ⟨some [], ?_, rfl⟩
      rw [hdone, getSeg_tail hnil, throughInt_eq (by decide), if_neg (by omega),
        if_neg (by omega)]
      rfl
  obtain ⟨seg, hget, hnone⟩ := hseg
  rw [copyLoop, hget]
  simp only [hnone, List.append_nil]
  rw [if_neg (by omega), if_neg (by omega), if_pos trivial, setReadError_tail]

theorem copy_tail_nil (len : ℕ) : (tail prevs k [] e).copy len =
    .ok ([], tail prevs k [] (e || decide (0 < throughInt len))) := by
  rw [copy, copyLoop, getSeg_tail_nil]
  cases h : throughInt len with
  | zero => simp
  | succ c => simp

/-- The loop of `ExpBufCopy` with data to read. -/
theorem copy_tail (hne : xs ≠ []) (len : ℕ) : (tail prevs k xs e).copy len =
      if xs.length ≤ throughInt len then
        if len < xs.length then .error .outOfBounds
        else if throughInt len ≤ xs.length then .ok (xs, tail prevs k [] e)
        else .ok (xs, tail prevs k [] true)
      else if xs.length < len then .error .outOfBounds
      else if throughInt len ≤ len then .ok (xs.take len, tail prevs k (xs.drop len) e)
      else .ok (xs.take len, tail prevs k (xs.drop len) true) := by
  have hpos := List.length_pos_of_ne_nil hne
  rw [copy, unread_tail, copyLoop, getSeg_tail (by exact hne)]
  simp only [List.length_nil, Nat.sub_zero, List.nil_append]
  split_ifs with hall hover hend hover hend
  · simp only [Option.getD_some]
    rw [if_pos hover]
  · simp only [Option.getD_some]
    rw [if_neg hover, if_pos hend]
  · simp only [Option.getD_some]
    rw [if_neg hover, if_neg hend, if_neg hne]
    exact copyLoop_tail_end (by omega) (by omega) (.inl rfl) _
  · rfl
  · have hlen : (xs.take len).length = len := List.length_take_of_le (by omega)
    simp only [Option.getD_some, hlen]
    rw [if_neg (by omega), if_pos hend]
  · have hlen : (xs.take len).length = len := List.length_take_of_le (by omega)
    have hsome : 0 < len := by
      by_contra hzero
      rw [throughInt_eq (by omega)] at hend
      omega
    have htake : xs.take len ≠ [] := List.ne_nil_of_length_pos (by omega)
    simp only [Option.getD_some, hlen]
    rw [if_neg (by omega), if_neg hend, if_neg htake]
    exact copyLoop_tail_end (by omega) (by omega) (.inr hlen) _

theorem skipLoop_tail_nil (fuel len : ℕ) :
    skipLoop (fuel + 1) (tail prevs k [] e) len = .ok (tail prevs k [] e) := by
  rw [skipLoop, getSeg_tail_nil]
  simp

theorem skip_tail (hne : xs ≠ []) {len : ℕ} (hlen : 0 < len) : (tail prevs k xs e).skip len =
    if xs.length ≤ throughInt len then .ok (tail prevs k [] e)
    else if xs.length < len then .error .outOfBounds
    else .ok (tail prevs k (xs.drop len) e) := by
  rw [skip, skipLoop, if_neg (by omega), getSeg_tail hne]
  split_ifs with hall hover
  · simp [hne, skipLoop_tail_nil]
  · rfl
  · have htake : xs.take len ≠ [] := by
      apply List.ne_nil_of_length_pos
      rw [List.length_take]
      have hpos := List.length_pos_of_ne_nil hne
      omega
    have hlen : (xs.take len).length = len := List.length_take_of_le (by omega)
    simp only [hlen]
    rw [if_neg htake, if_pos (Nat.le_refl len), Nat.sub_self, unread_tail]
    rfl

theorem peekCopy_tail (len : ℕ) : (tail prevs k xs e).peekCopy len =
    (if xs.length ≤ len then [] else xs.take len, tail prevs k xs e) := by
  cases xs with
  | nil => simp [peekCopy, peekCopyLoop, peekSeg, tail]
  | cons o rest =>
      simp [peekCopy, peekCopyLoop, peekSeg, tail]
      split_ifs <;> simp

end ExpBuf

theorem Read.Yields.unique {s s' s'' : Stream} {r : Read} {out : List Octet}
    (h : r.Yields s out s') (h' : r.Yields s out s'') : s' = s'' := by
  cases h with
  | seg n len rest e hlen hrest hsome =>
      generalize hout : rest.take n = out at h'
      cases h' with
      | seg m _ _ _ hlen' hrest' hsome' =>
          have hsame := congrArg List.length hout
          rw [List.length_take_of_le hrest, List.length_take_of_le hrest'] at hsame
          rw [hsame]
  | byte o rest e => cases h'; rfl
  | endOfData e => cases h'; rfl
  | copy len rest e => cases h'; rfl
  | skip len rest e => cases h'; rfl
  | peekCopy len rest e => cases h'; rfl

namespace ExpBuf

variable {prevs : List Block} {k : Block} {xs : List Octet} {e : Bool}

/-- At the last block, a read that fits does what it should. -/
theorem run_tail_of_fits {r : Read} (h : r.Fits ⟨xs, e⟩) :
    ∃ out, r.run (tail prevs k xs e) =
        .ok (out, tail prevs k (r.leaves ⟨xs, e⟩).rest (r.leaves ⟨xs, e⟩).readError) ∧
      r.Yields ⟨xs, e⟩ out (r.leaves ⟨xs, e⟩) := by
  cases r with
  | getByte =>
      rw [Read.run, getByte_tail]
      cases xs with
      | nil =>
          refine ⟨[0], ?_, ?_⟩
          · simp [Read.leaves]
          · have hyields := Read.Yields.endOfData e
            simpa [Read.leaves] using hyields
      | cons o rest =>
          refine ⟨[o], ?_, ?_⟩
          · simp [Read.leaves]
          · have hyields := Read.Yields.byte o rest e
            simpa [Read.leaves] using hyields
  | getSeg len =>
      simp only [Read.Fits, SegFits] at h
      rw [Read.run]
      by_cases hne : xs = []
      · subst hne
        refine ⟨[], ?_, ?_⟩
        · simp [getSeg_tail_nil, Read.leaves, Except.map]
        · have hyields := Read.Yields.seg 0 len [] e (Nat.zero_le _) (Nat.zero_le _)
            fun _ => .inr rfl
          simpa [Read.leaves] using hyields
      · have hpos := List.length_pos_of_ne_nil hne
        rw [getSeg_tail hne]
        split_ifs with hall hover
        · have hle : xs.length ≤ len := by omega
          refine ⟨xs, ?_, ?_⟩
          · simp [Read.leaves, Except.map, List.drop_of_length_le hle]
          · have hyields := Read.Yields.seg xs.length len xs e hle le_rfl (by omega)
            simpa [Read.leaves, List.drop_of_length_le hle] using hyields
        · omega
        · exact ⟨xs.take len, rfl,
            .seg len len xs e le_rfl (by omega) fun hzero => .inl hzero⟩
  | copy len =>
      refine ⟨xs.take len, ?_, .copy len xs e⟩
      rw [Read.run, Read.leaves]
      by_cases hne : xs = []
      · subst hne
        have hsame : (e || decide (0 < throughInt len)) = (e || decide (0 < len)) := by
          rcases h with h | h
          · rw [show e = true from h.1]
            rfl
          · rw [CopyFits, List.length_nil] at h
            congr 2
            apply propext
            omega
        rw [copy_tail_nil, hsame]
        simp
      · have hfits : CopyFits len xs.length := by
          rcases h with h | h
          · exact absurd h.2 hne
          · exact h
        rw [CopyFits] at hfits
        rw [copy_tail hne]
        split_ifs with hall hover hend hover hend
        · omega
        · have hlen : len = xs.length := by omega
          simp [hlen]
        · have hlen : xs.length < len := by omega
          simp [hlen, List.take_of_length_le, List.drop_of_length_le, hlen.le]
        · omega
        · have hlen : ¬ xs.length < len := by omega
          simp [hlen]
        · omega
  | skip len =>
      simp only [Read.Fits, SegFits] at h
      refine ⟨[], ?_, .skip len xs e⟩
      rw [Read.run, Read.leaves]
      by_cases hne : xs = []
      · subst hne
        rw [skip, skipLoop_tail_nil]
        simp [Except.map]
      · have hpos := List.length_pos_of_ne_nil hne
        by_cases hlen : len = 0
        · subst hlen
          simp [skip, skipLoop, Except.map]
        · rw [skip_tail hne (by omega)]
          split_ifs with hall hover
          · have hle : xs.length ≤ len := by omega
            simp [Except.map, List.drop_of_length_le hle]
          · omega
          · rfl
  | peekCopy len =>
      refine ⟨xs.take len, ?_, .peekCopy len xs e⟩
      rw [Read.run, peekCopy_tail, Read.leaves]
      rcases h with h | h
      · have hnil : xs = [] := h
        simp [hnil]
      · have hlt : len < xs.length := h
        rw [if_neg (by omega)]

/-- A read that does what it should fits. Past the end there is nothing left. -/
theorem fits_of_run_tail {r : Read} {out : List Octet} {b' : ExpBuf} {s' : Stream}
    (he : e = true → xs = []) (hrun : r.run (tail prevs k xs e) = .ok (out, b'))
    (hyields : r.Yields ⟨xs, e⟩ out s') (hrefines : b'.Refines s') : r.Fits ⟨xs, e⟩ := by
  cases hyields with
  | byte => exact trivial
  | endOfData => exact trivial
  | seg n len _ _ hlen hrest hsome =>
      by_contra hnot
      simp only [Read.Fits, SegFits] at hnot
      have hne : xs ≠ [] := by
        intro hnil
        simp [hnil] at hnot
      rw [Read.run, getSeg_tail hne] at hrun
      split_ifs at hrun with hall hover
      · have hout : xs = xs.take n := congrArg Prod.fst (Except.ok.inj hrun)
        have hlength := congrArg List.length hout
        rw [List.length_take] at hlength
        omega
      · cases hrun
      · omega
  | copy len =>
      by_contra hnot
      simp only [Read.Fits, not_or] at hnot
      obtain ⟨hpast, hfits⟩ := hnot
      have hfresh : e = false := by
        cases e with
        | false => rfl
        | true => exact absurd ⟨rfl, he rfl⟩ hpast
      subst hfresh
      have herror := hrefines.readError
      rw [CopyFits] at hfits
      rw [Read.run] at hrun
      by_cases hne : xs = []
      · subst hne
        rw [copy_tail_nil] at hrun
        obtain ⟨-, rfl⟩ := Prod.mk.inj (Except.ok.inj hrun)
        have hsame : (0 < throughInt len) ↔ 0 < len := by simpa [tail] using herror
        rw [List.length_nil] at hfits
        omega
      · rw [copy_tail hne] at hrun
        split_ifs at hrun with hall hover hend hover hend
        · obtain ⟨-, rfl⟩ := Prod.mk.inj (Except.ok.inj hrun)
          have hsame : ¬ xs.length < len := by simpa [tail] using herror
          omega
        · obtain ⟨-, rfl⟩ := Prod.mk.inj (Except.ok.inj hrun)
          have hsame : xs.length < len := by simpa [tail] using herror
          omega
        · omega
        · obtain ⟨-, rfl⟩ := Prod.mk.inj (Except.ok.inj hrun)
          have hsame : xs.length < len := by simpa [tail] using herror
          omega
  | skip len =>
      by_contra hnot
      simp only [Read.Fits, SegFits] at hnot
      have hne : xs ≠ [] := by
        intro hnil
        simp [hnil] at hnot
      have hrest := hrefines.unread
      have hlen : 0 < len := by
        by_contra hzero
        rw [throughInt_eq (by omega)] at hnot
        omega
      rw [Read.run, skip_tail hne hlen] at hrun
      split_ifs at hrun with hall hover
      · obtain ⟨-, rfl⟩ := Prod.mk.inj (Except.ok.inj hrun)
        rw [unread_tail] at hrest
        have hlength := congrArg List.length hrest
        rw [List.length_nil, List.length_drop] at hlength
        omega
      · cases hrun
      · omega
  | peekCopy len =>
      rw [Read.run, peekCopy_tail] at hrun
      have hout := congrArg Prod.fst (Except.ok.inj hrun)
      have hlength := congrArg List.length hout
      rw [Read.Fits, ← List.length_eq_zero_iff]
      simp only [List.length_take] at hlength ⊢
      split_ifs at hlength with hle
      · rw [List.length_nil] at hlength
        omega
      · omega

/-- Reading on past the end leaves nothing behind. -/
theorem leaves_past (r : Read) {s : Stream} (h : s.readError = true → s.rest = []) :
    (r.leaves s).readError = true → (r.leaves s).rest = [] := by
  cases r with
  | getByte =>
      intro herror
      simp only [Read.leaves, Bool.or_eq_true, decide_eq_true_eq] at herror ⊢
      rcases herror with herror | hnil
      · rw [h herror, List.tail_nil]
      · rw [hnil, List.tail_nil]
  | copy len =>
      intro herror
      simp only [Read.leaves, Bool.or_eq_true, decide_eq_true_eq] at herror ⊢
      rcases herror with herror | hlt
      · rw [h herror, List.drop_nil]
      · exact List.drop_of_length_le (by omega)
  | getSeg len =>
      intro herror
      show s.rest.drop len = []
      rw [h herror, List.drop_nil]
  | skip len =>
      intro herror
      show s.rest.drop len = []
      rw [h herror, List.drop_nil]
  | peekCopy len => exact h

/-- At the last block, a sequence of reads does what it should exactly if all of them fit. -/
theorem readsAs_tail_iff {s : Stream} (h : s.readError = true → s.rest = []) (rs : List Read) :
    ReadsAs (tail prevs k s.rest s.readError) s rs ↔ Read.AllFit s rs := by
  induction rs generalizing s with
  | nil => exact iff_of_true (tail_refines_iff.2 rfl) trivial
  | cons r rs ih =>
      have hself : (tail prevs k s.rest s.readError).Refines s := tail_refines_iff.2 rfl
      constructor
      · rintro ⟨-, out, b', s', hrun, hyields, hreads⟩
        have hrefines : b'.Refines s' := by
          cases rs with
          | nil => exact hreads
          | cons r' rs' => exact hreads.1
        have hfits : r.Fits s := fits_of_run_tail h hrun hyields hrefines
        obtain ⟨out', hrun', hyields'⟩ := @run_tail_of_fits prevs k s.rest s.readError r hfits
        obtain ⟨rfl, rfl⟩ := Prod.mk.inj (Except.ok.inj (hrun.symm.trans hrun'))
        have hstream : s' = r.leaves s := hyields.unique hyields'
        rw [hstream] at hreads
        exact ⟨hfits, (ih (leaves_past r h)).1 hreads⟩
      · rintro ⟨hfits, hall⟩
        obtain ⟨out, hrun, hyields⟩ := @run_tail_of_fits prevs k s.rest s.readError r hfits
        exact ⟨hself, out, _, _, hrun, hyields, (ih (leaves_past r h)).2 hall⟩

end ExpBuf

end Esnacc.CLib
