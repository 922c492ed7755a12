import Esnacc.Lib.BigEndian
import Esnacc.Runtime.Int

/-!
What `storeDERInteger` keeps of a byte string. Leading octets that say nothing are dropped, and
a clear sign bit is put in front of an unsigned number; the copy of the integer in `m_value` is
what large ones fail at.
-/

namespace Esnacc.AsnInt

open BitString

/-- The integer a byte string denotes, read as signed or as unsigned. -/
def denoted (pData : List Octet) (unsignedFlag : Bool) : ℤ :=
  if unsignedFlag then natOfOctets pData else intOfOctets pData

/-- `operator==`. -/
def opEq (x y : AsnInt) : Bool :=
  if x.mBytes.length = y.mBytes.length then x.mBytes = y.mBytes else false

/-- The call returns, with the shortest octets of the integer that was given. -/
def StoresShortest (pData : List Octet) (unsignedFlag : Bool) : Prop :=
  ∃ x, storeDERInteger pData unsignedFlag = .ok x ∧ Shortest x.mBytes ∧
    x.value = denoted pData unsignedFlag

/-- There are octets to store, not only one where they are signed, and the integer fits
`m_value`. -/
def Storable (pData : List Octet) (unsignedFlag : Bool) : Prop :=
  (if unsignedFlag then pData ≠ [] else 1 < pData.length) ∧
    -2 ^ 63 ≤ denoted pData unsignedFlag ∧ denoted pData unsignedFlag < 2 ^ 63

instance (pData : List Octet) (unsignedFlag : Bool) : Decidable (Storable pData unsignedFlag) := by
  unfold Storable
  infer_instance

theorem opEq_iff (x y : AsnInt) : opEq x y = true ↔ x.mBytes = y.mBytes := by
  rw [opEq]
  split
  · exact decide_eq_true_iff
  · next hlen => exact iff_of_false (fun h => nomatch h) fun h => hlen (congrArg List.length h)

variable {pData : List Octet} {unsignedFlag : Bool}

/-- The loop that drops zeros leaves octets of which the first nine bits are not all zeros. -/
theorem dropZeros_stops {a b : Octet} {rest : List Octet} (h : dropZeros pData = a :: b :: rest) :
    ¬ (a = 0 ∧ b.msb = false) := by
  rintro ⟨rfl, hb⟩
  have hreduced := dropZeros_reduced pData
  rw [h] at hreduced
  rcases hreduced with hlen | hhead | hsign
  · simp at hlen
  · exact hhead rfl
  · rw [show signBit (0 :: b :: rest).tail = b.msb from rfl, hb] at hsign
    cases hsign

theorem dropOnes_stops {a b : Octet} {rest : List Octet} (h : dropOnes pData = a :: b :: rest) :
    ¬ (a = 0xFF ∧ b.msb = true) := by
  induction pData with
  | nil => cases h
  | cons c os ih =>
      cases os with
      | nil => cases h
      | cons d os =>
          rw [dropOnes_cons] at h
          split at h
          · exact ih h
          · next hkeep =>
              obtain ⟨rfl, rfl, rfl⟩ : c = a ∧ d = b ∧ os = rest := by simpa using h
              exact hkeep

theorem dropOnes_ne_nil (h : pData ≠ []) : dropOnes pData ≠ [] := by
  induction pData with
  | nil => exact absurd rfl h
  | cons a os ih =>
      cases os with
      | nil => exact h
      | cons b rest =>
          rw [dropOnes_cons]
          split
          · exact ih (List.cons_ne_nil b rest)
          · exact List.cons_ne_nil _ _

/-- Dropping zeros brings no ones to the front. -/
theorem dropZeros_keeps {os : List Octet}
    (hos : ∀ a b rest, os = a :: b :: rest → ¬ (a = 0xFF ∧ b.msb = true))
    {a b : Octet} {rest : List Octet} (h : dropZeros os = a :: b :: rest) :
    ¬ (a = 0xFF ∧ b.msb = true) := by
  rintro ⟨rfl, hb⟩
  have hsign : signBit (dropZeros os) = true := by
    rw [h]
    exact (by decide : (0xFF : Octet).msb = true)
  rw [dropZeros_eq_self_of_signBit hsign] at h
  exact hos _ _ _ h ⟨rfl, hb⟩

/-- Octets on which both loops have stopped, with at least one left, are the shortest ones. -/
theorem shortest_of_stopped {os : List Octet} (hne : os ≠ [])
    (hzeros : ∀ a b rest, os = a :: b :: rest → ¬ (a = 0 ∧ b.msb = false))
    (hones : ∀ a b rest, os = a :: b :: rest → ¬ (a = 0xFF ∧ b.msb = true)) : Shortest os :=
  match os with
  | [] => absurd rfl hne
  | [o] => shortest_singleton o
  | a :: b :: rest => shortest_of_reduced (hzeros a b rest rfl) (hones a b rest rfl)

theorem shortest_derOctets_signed (h : 1 < pData.length) : Shortest (derOctets pData false) := by
  have hne : pData ≠ [] := List.ne_nil_of_length_pos (by omega)
  simp only [derOctets, if_pos h, Bool.false_eq_true, if_false]
  exact shortest_of_stopped (dropZeros_ne_nil (dropOnes_ne_nil hne))
    (fun _ _ _ => dropZeros_stops) (fun _ _ _ => dropZeros_keeps fun _ _ _ => dropOnes_stops)

theorem shortest_derOctets_unsigned (h : pData ≠ []) : Shortest (derOctets pData true) := by
  rw [derOctets_unsigned]
  split
  · next hsign =>
      rw [dropZeros_eq_self_of_signBit hsign] at hsign
      cases pData with
      | nil => exact absurd rfl h
      | cons a os =>
          have hmsb : a.msb = true := hsign
          refine shortest_of_reduced (fun hzero => ?_) (fun hone => ?_)
          · rw [hmsb] at hzero
            cases hzero.2
          · exact absurd hone.1 (by decide)
  · next hsign =>
      refine shortest_of_stopped (dropZeros_ne_nil h) (fun _ _ _ => dropZeros_stops) ?_
      rintro a b rest heq ⟨rfl, -⟩
      rw [heq] at hsign
      exact hsign (by decide : (0xFF : Octet).msb = true)

/-- What is stored denotes the integer that was given, save for one signed octet. -/
theorem intOfOctets_derOctets (h : if unsignedFlag then pData ≠ [] else 1 < pData.length) :
    intOfOctets (derOctets pData unsignedFlag) = denoted pData unsignedFlag := by
  cases unsignedFlag with
  | false => exact intOfOctets_derOctets_signed h
  | true => exact intOfOctets_derOctets_unsigned pData

theorem shortest_derOctets (h : if unsignedFlag then pData ≠ [] else 1 < pData.length) :
    Shortest (derOctets pData unsignedFlag) := by
  cases unsignedFlag with
  | false => exact shortest_derOctets_signed h
  | true => exact shortest_derOctets_unsigned h

theorem storeDERInteger_of_length_le (h : (derOctets pData unsignedFlag).length ≤ 8) :
    storeDERInteger pData unsignedFlag =
      .ok ⟨intOfOctets (derOctets pData unsignedFlag), derOctets pData unsignedFlag⟩ := by
  have hword := @getLongLong_eq ⟨0, derOctets pData unsignedFlag⟩ h
  simp only [storeDERInteger, hword, bind, Except.bind, pure, Except.pure]
  rfl

theorem storeDERInteger_error (h : ¬ (derOctets pData unsignedFlag).length ≤ 8) :
    ∃ e, storeDERInteger pData unsignedFlag = .error e := by
  obtain ⟨e, he⟩ := @getLongLong_error ⟨0, derOctets pData unsignedFlag⟩ (by simpa using h)
  refine ⟨e, ?_⟩
  simp only [storeDERInteger, he, bind, Except.bind]

theorem mBytes_of_storeDERInteger {x : AsnInt} (h : storeDERInteger pData unsignedFlag = .ok x) :
    x.mBytes = derOctets pData unsignedFlag := by
  by_cases hfit : (derOctets pData unsignedFlag).length ≤ 8
  · rw [storeDERInteger_of_length_le hfit] at h
    cases h
    rfl
  · obtain ⟨e, he⟩ := storeDERInteger_error hfit
    rw [he] at h
    cases h

/-- Octets that there are too few of leave nothing stored. -/
theorem derOctets_eq_nil (h : ¬ if unsignedFlag then pData ≠ [] else 1 < pData.length) :
    derOctets pData unsignedFlag = [] := by
  cases unsignedFlag with
  | false =>
      have hfew : ¬ 1 < pData.length := h
      simp only [derOctets, if_neg hfew, Bool.false_eq_true, if_false]
  | true =>
      obtain rfl : pData = [] := not_not.mp h
      rfl

theorem storesShortest_iff (pData : List Octet) (unsignedFlag : Bool) :
    StoresShortest pData unsignedFlag ↔ Storable pData unsignedFlag := by
  rw [Storable]
  by_cases h : if unsignedFlag then pData ≠ [] else 1 < pData.length
  · have hshort := shortest_derOctets h
    have hvalue := intOfOctets_derOctets h
    have hfit := hshort.length_le_iff (by decide : 0 < 8)
    rw [hvalue] at hfit
    have hrange : (derOctets pData unsignedFlag).length ≤ 8 ↔
        -2 ^ 63 ≤ denoted pData unsignedFlag ∧ denoted pData unsignedFlag < 2 ^ 63 := by
      rw [hfit]
      omega
    rw [and_iff_right h, ← hrange]
    constructor
    · rintro ⟨x, hx, -⟩
      by_contra hlong
      obtain ⟨e, he⟩ := storeDERInteger_error hlong
      rw [he] at hx
      cases hx
    · intro hle
      exact ⟨_, storeDERInteger_of_length_le hle, hshort, hvalue⟩
  · refine iff_of_false ?_ fun hstorable => h hstorable.1
    rintro ⟨x, hx, hshort, -⟩
    rw [mBytes_of_storeDERInteger hx, derOctets_eq_nil h] at hshort
    exact hshort.1 rfl

/-- Between objects with the shortest octets, the comparison of octets is the one of integers. -/
theorem value_eq_iff_opEq {x y : AsnInt} (hx : Shortest x.mBytes) (hy : Shortest y.mBytes) :
    x.value = y.value ↔ opEq x y = true := by
  rw [opEq_iff]
  exact ⟨hx.eq_of_intOfOctets_eq hy, fun h => congrArg intOfOctets h⟩

/-- Where the shortest octets are stored, and that equality of these is equality of integers. -/
theorem storeDERInteger_correct_iff (pData : List Octet) (unsignedFlag : Bool) :
    (StoresShortest pData unsignedFlag ↔ Storable pData unsignedFlag) ∧
      ∀ (pData' : List Octet) (unsignedFlag' : Bool) (x y : AsnInt),
        Storable pData unsignedFlag → Storable pData' unsignedFlag' →
        storeDERInteger pData unsignedFlag = .ok x → storeDERInteger pData' unsignedFlag' = .ok y →
        (denoted pData unsignedFlag = denoted pData' unsignedFlag' ↔ opEq x y = true) := by
  refine ⟨storesShortest_iff pData unsignedFlag, fun pData' unsignedFlag' x y h h' hx hy => ?_⟩
  obtain ⟨x', hx', hshort, hvalue⟩ := (storesShortest_iff pData unsignedFlag).mpr h
  obtain ⟨y', hy', hshort', hvalue'⟩ := (storesShortest_iff pData' unsignedFlag').mpr h'
  obtain rfl : x' = x := Except.ok.inj (hx'.symm.trans hx)
  obtain rfl : y' = y := Except.ok.inj (hy'.symm.trans hy)
  rw [← hvalue, ← hvalue']
  exact value_eq_iff_opEq hshort hshort'

theorem storeDERInteger_correct_at :
    denoted [0x00, 0x00, 0xFF] false = denoted [0xFF] true ↔
      opEq ⟨255, [0x00, 0xFF]⟩ ⟨255, [0x00, 0xFF]⟩ = true :=
  (storeDERInteger_correct_iff [0x00, 0x00, 0xFF] false).2 [0xFF] true _ _ (by decide) (by decide)
    (by rfl) (by rfl)

/-- One octet that is signed is not stored. -/
theorem not_storesShortest :
    ¬ ∀ (pData : List Octet) (unsignedFlag : Bool), StoresShortest pData unsignedFlag := by
  intro hall
  obtain ⟨x, hx, hshort, -⟩ := hall [5] false
  rw [mBytes_of_storeDERInteger hx] at hshort
  exact hshort.1 rfl

end Esnacc.AsnInt
