import Esnacc.Lib.SwapSort
import Esnacc.Per.IntegerRoundTrip

/-!
Enumerations in PER. What is written is not the value but its index among the values of the
enumeration, which `IndexedVal` and `SetIndex` find by sorting the list that the generated code
gives them. They sort it in descending order: the index is the number of the larger values, where
it should be the number of the smaller ones. The two agree with each other all the same.
-/

namespace Esnacc

open BitString StreamCodec AsnBufBits

namespace AsnEnum

/-! ### The code -/

def indexedVal (x : AsnInt) (penumList : ℕ → ℤ) (numVals : ℕ) : Except Fault ℕ :=
  if 4 < x.mBytes.length then .error (except "enumerated value is too big" .integerError)
  else do
    let temp ← x.getInt
    match (List.range numVals).find? fun count1 =>
        temp = SwapSort.sort numVals penumList count1 with
    | some count1 => return count1
    | none => throw (except "value is not in enumerated List" .integerError)

def setIndex (penumList : ℕ → ℤ) (numVals : ℕ) (index : ℤ) : Except Fault AsnInt :=
  if 0 ≤ index ∧ index < numVals then
    AsnInt.set (toInt32 (SwapSort.sort numVals penumList index.toNat))
  else .error (.undefinedBehaviour "index outside of the enumerated list")

/-- The generated `PEnc` of an enumeration of `count` values. -/
def pEnc (enumList : ℕ → ℤ) (count : ℕ) (x : AsnInt) : PerM ℕ := do
  let indexedVal ← StateT.lift (indexedVal x enumList count)
  let index ← StateT.lift (AsnInt.set (toInt32 indexedVal))
  index.pEncFullyConstrained 0 (count - 1)

/-- The generated `PDec`. -/
def pDec (enumList : ℕ → ℤ) (count bitsDecoded : ℕ) : PerM (AsnInt × ℕ) := do
  let (index, bitsDecoded) ← AsnInt.pDecFullyConstrained 0 (count - 1) bitsDecoded
  let index ← StateT.lift index.getInt
  let x ← StateT.lift (setIndex enumList count index)
  return (x, bitsDecoded)

/-! ### Enumerations -/

/-- The values of an enumeration: the compiler holds each of them, and counts them, in an `int`. -/
structure Enumeration where
  values : Finset ℤ
  isInt : ∀ v ∈ values, -2 ^ 31 ≤ v ∧ v < 2 ^ 31
  card_lt : values.card < 2 ^ 31

/-- The values in the order of a declaration. -/
structure Declares (S : Enumeration) (enumList : ℕ → ℤ) : Prop where
  elements_eq : SwapSort.elements S.values.card enumList = S.values
  distinct : Set.InjOn enumList (Set.Iio S.values.card)

/-- How many values are smaller: the index that an enumerated value has. -/
def Enumeration.rank (S : Enumeration) (v : ℤ) : ℕ := (S.values.filter (· < v)).card

/-- How many values are larger. -/
def Enumeration.above (S : Enumeration) (v : ℤ) : ℕ := (S.values.filter (v < ·)).card

theorem Enumeration.rank_add_above (S : Enumeration) {v : ℤ} (hv : v ∈ S.values) :
    S.rank v + S.above v + 1 = S.values.card := by
  have hle : S.values.filter (¬ · < v) = Insert.insert v (S.values.filter (v < ·)) := by
    ext w
    simp only [Finset.mem_filter, Finset.mem_insert, not_lt]
    constructor
    · rintro ⟨hw, hvw⟩
      rcases hvw.eq_or_lt with rfl | hvw
      · exact .inl rfl
      · exact .inr ⟨hw, hvw⟩
    · rintro (rfl | ⟨hw, hvw⟩)
      · exact ⟨hv, le_rfl⟩
      · exact ⟨hw, hvw.le⟩
  have hsum := Finset.card_filter_add_card_filter_not (s := S.values) (· < v)
  rw [hle, Finset.card_insert_of_notMem (by simp)] at hsum
  exact hsum

theorem Enumeration.rank_lt (S : Enumeration) {v : ℤ} (hv : v ∈ S.values) :
    S.rank v < S.values.card := by
  have := S.rank_add_above hv
  omega

theorem Enumeration.above_lt (S : Enumeration) {v : ℤ} (hv : v ∈ S.values) :
    S.above v < S.values.card := by
  have := S.rank_add_above hv
  omega

/-- Some order can be declared. -/
theorem Enumeration.exists_declares (S : Enumeration) : ∃ enumList, Declares S enumList := by
  refine ⟨fun k => S.values.toList.getD k 0, ?_, ?_⟩
  · ext v
    simp only [SwapSort.elements, Finset.mem_image, Finset.mem_range]
    constructor
    · rintro ⟨k, hk, rfl⟩
      rw [← Finset.length_toList] at hk
      rw [List.getD_eq_getElem _ _ hk]
      exact Finset.mem_toList.mp (List.getElem_mem hk)
    · intro hv
      obtain ⟨k, hk, rfl⟩ := List.getElem_of_mem (Finset.mem_toList.mpr hv)
      exact ⟨k, by rwa [← Finset.length_toList], List.getD_eq_getElem _ _ hk⟩
  · intro p hp q hq hpq
    rw [Set.mem_Iio, ← Finset.length_toList] at hp hq
    dsimp only at hpq
    rw [List.getD_eq_getElem _ _ hp, List.getD_eq_getElem _ _ hq] at hpq
    exact (List.Nodup.getElem_inj_iff S.values.nodup_toList).mp hpq

/-! ### What the code finds -/

section Index

variable {S : Enumeration} {enumList : ℕ → ℤ}

/-- In the sorted list every value stands behind the larger ones. -/
theorem Declares.sort_eq_iff (h : Declares S enumList) {k : ℕ} (hk : k < S.values.card) {v : ℤ}
    (hv : v ∈ S.values) :
    SwapSort.sort S.values.card enumList k = v ↔ k = S.above v := by
  have hrearranged := SwapSort.sort_rearranged S.values.card enumList
  have helements := hrearranged.elements_eq.trans h.elements_eq
  have hplace {k : ℕ} (hk : k < S.values.card) :
      S.above (SwapSort.sort S.values.card enumList k) = k := by
    have hcard := SwapSort.card_larger (SwapSort.sort_descending S.values.card enumList)
      (hrearranged.injOn h.distinct) hk
    rwa [helements] at hcard
  constructor
  · rintro rfl
    exact (hplace hk).symm
  · rintro rfl
    obtain ⟨p, hp, rfl⟩ : ∃ p < S.values.card, SwapSort.sort S.values.card enumList p = v := by
      rw [← helements] at hv
      simpa [SwapSort.elements] using hv
    rw [hplace hp]

theorem Declares.indexedVal_eq (h : Declares S enumList) {x : AsnInt} (hlen : x.mBytes.length ≤ 4)
    (hmem : x.value ∈ S.values) :
    indexedVal x enumList S.values.card = .ok (S.above x.value) := by
  have hfind : (List.range S.values.card).find? (fun count1 =>
      x.value = SwapSort.sort S.values.card enumList count1) = some (S.above x.value) := by
    have habove := S.above_lt hmem
    refine List.find?_range_eq_some.mpr ⟨?_, List.mem_range.mpr habove, fun j hj => ?_⟩
    · exact decide_eq_true ((h.sort_eq_iff habove hmem).mpr rfl).symm
    · have hne := mt (h.sort_eq_iff (hj.trans habove) hmem).mp (Nat.ne_of_lt hj)
      simpa using Ne.symm hne
  rw [indexedVal, if_neg (by omega), AsnInt.getInt_eq hlen]
  change (match (List.range S.values.card).find? _ with
    | some count1 => (.ok count1 : Except Fault ℕ)
    | none => _) = _
  rw [hfind]

theorem Declares.setIndex_eq (h : Declares S enumList) {v : ℤ} (hv : v ∈ S.values) :
    ∃ y, setIndex enumList S.values.card (S.above v) = .ok y ∧ y.value = v := by
  have habove := S.above_lt hv
  obtain ⟨hge, hlt⟩ := S.isInt v hv
  obtain ⟨y, hset, hvalue⟩ := AsnInt.set_toInt32 v
  refine ⟨y, ?_, hvalue.trans (toInt32_eq hge hlt)⟩
  rw [setIndex, if_pos ⟨by omega, by exact_mod_cast habove⟩, Int.toNat_natCast,
    (h.sort_eq_iff habove hv).mpr rfl]
  exact hset

end Index

/-! ### Two peers -/

variable {S : Enumeration} {bAligned : Bool}

/-- The index of a value comes back, and is held in no more than four octets. -/
theorem index_recovers (pre : List Bool) {n k : ℕ} (hk : k < n) (hn : n < 2 ^ 31) {index : AsnInt}
    (hindex : AsnInt.set (toInt32 k) = .ok index) :
    Recovers (Written bAligned) (Unread bAligned) pre (index.pEncFullyConstrained 0 (n - 1))
      (AsnInt.pDecFullyConstrained 0 (n - 1)) (·.getInt = .ok k) := by
  rw [toInt32_eq (by omega) (by omega)] at hindex
  obtain ⟨hvalue, hlen⟩ : index.value = k ∧ index.mBytes.length ≤ 4 := by
    obtain ⟨hset, hvalue, hlen⟩ := AsnInt.set_eq (z := k) (by omega) (by omega)
    obtain rfl := Except.ok.inj (hset.symm.trans hindex)
    exact ⟨hvalue, hlen⟩
  have hgetInt : index.getInt = .ok k := by rw [AsnInt.getInt_eq hlen, hvalue]
  by_cases hone : n = 1
  · -- one value needs no bits
    obtain rfl : k = 0 := by omega
    subst hone
    have hset : AsnInt.set (toInt32 (0 : ℕ)) = .ok ⟨0, [0]⟩ := by decide
    obtain rfl := Except.ok.inj (hset.symm.trans hindex)
    refine ⟨0, [], ⟨0, [0]⟩, Emits.pure pre 0, rfl, fun count => ?_⟩
    exact Takes.pure pre.length ((⟨0, [0]⟩ : AsnInt), count)
  · refine (AsnInt.fullyConstrained_recovers_set pre hlen ?_ ?_ (by omega) (by omega)).imp ?_
    · omega
    · omega
    · intro y hy
      rw [hvalue, hindex] at hy
      obtain rfl := Except.ok.inj hy
      exact hgetInt

/-- Whatever the order in which each of them declares the values, the one reads what the other
wrote. -/
theorem pEnc_recovers (pre : List Bool) {mine theirs : ℕ → ℤ} (hmine : Declares S mine)
    (htheirs : Declares S theirs) {x : AsnInt} (hlen : x.mBytes.length ≤ 4)
    (hmem : x.value ∈ S.values) :
    Recovers (Written bAligned) (Unread bAligned) pre (pEnc mine S.values.card x)
      (pDec theirs S.values.card) (·.value = x.value) := by
  have habove := S.above_lt hmem
  obtain ⟨index, hindex, -⟩ := AsnInt.set_toInt32 (S.above x.value)
  obtain ⟨y, hset, hvalue⟩ := htheirs.setIndex_eq hmem
  obtain ⟨n, xs, a, hemits, ha, htakes⟩ :=
    @index_recovers bAligned pre _ _ habove S.card_lt _ hindex
  refine ⟨n, xs, y, ?_, hvalue, fun count => ?_⟩
  · unfold pEnc
    simp only [hmine.indexedVal_eq hlen hmem, hindex, lift_ok, pure_bind]
    exact hemits
  · unfold pDec
    refine ((htakes count).bind ?_).of_eq rfl (List.append_nil xs)
    simp only [ha, hset, lift_ok, pure_bind]
    exact Takes.pure _ _

/-- The index fits the bits that are used for it. -/
theorem fits_of_lt {n k : ℕ} (hk : k < n) (hn : n < 2 ^ 31) :
    ∃ bits, minBitsNeeded (n - 1) = .ok bits ∧ k < 2 ^ bits := by
  refine ⟨(n - 1).size, ?_, ?_⟩
  · rw [show ((n : ℤ) - 1) = (n - 1 : ℕ) by omega]
    exact minBitsNeeded_eq (by omega)
  · have := Nat.lt_size_self (n - 1)
    omega

/-! ### The law -/

/-- What PER asks for the value that `x` holds. -/
structure Lawful (S : Enumeration) (x : AsnInt) : Prop where
  indexed : ∀ enumList, Declares S enumList →
    indexedVal x enumList S.values.card = .ok (S.rank x.value)
  restored : ∀ enumList, Declares S enumList →
    ∃ y, setIndex enumList S.values.card (S.rank x.value) = .ok y ∧ y.value = x.value
  fits : ∃ bits, minBitsNeeded (S.values.card - 1) = .ok bits ∧ S.rank x.value < 2 ^ bits
  recovers : ∀ mine theirs, Declares S mine → Declares S theirs → ∀ bAligned pre,
    Recovers (Written bAligned) (Unread bAligned) pre (pEnc mine S.values.card x)
      (pDec theirs S.values.card) (·.value = x.value)

/-- The law holds of the value in the middle only. -/
theorem lawful_iff (S : Enumeration) {x : AsnInt} (hmem : x.value ∈ S.values) :
    Lawful S x ↔ x.mBytes.length ≤ 4 ∧ 2 * S.rank x.value + 1 = S.values.card := by
  have hsum := S.rank_add_above hmem
  constructor
  · rintro ⟨hindexed, -, -, -⟩
    obtain ⟨enumList, hdeclares⟩ := S.exists_declares
    have hrank := hindexed enumList hdeclares
    by_cases hlen : x.mBytes.length ≤ 4
    · rw [hdeclares.indexedVal_eq hlen hmem] at hrank
      exact ⟨hlen, by have := Except.ok.inj hrank; omega⟩
    · rw [indexedVal, if_pos (by omega)] at hrank
      cases hrank
  · rintro ⟨hlen, hmiddle⟩
    have hrank : S.rank x.value = S.above x.value := by omega
    exact
      { indexed := fun _ h => hrank ▸ h.indexedVal_eq hlen hmem
        restored := fun _ h => hrank ▸ h.setIndex_eq hmem
        fits := fits_of_lt (S.rank_lt hmem) S.card_lt
        recovers := fun _ _ hmine htheirs _ pre => pEnc_recovers pre hmine htheirs hlen hmem }

/-- The middle of three. -/
theorem lawful_middle :
    Lawful ⟨{-1, 0, 1}, by decide, by decide⟩ ⟨0, [0]⟩ :=
  (lawful_iff ⟨{-1, 0, 1}, by decide, by decide⟩ (x := ⟨0, [0]⟩) (by decide)).mpr
    ⟨by decide, by decide⟩

/-- Of two values the smaller one gets the index 1. -/
theorem not_lawful :
    indexedVal ⟨0, [0]⟩ (fun k => [0, 1].getD k 0) 2 = .ok 1 ∧
      ¬ ∀ (S : Enumeration) (x : AsnInt), x.value ∈ S.values → Lawful S x := by
  refine ⟨by decide, fun h => ?_⟩
  have hlawful := h ⟨{0, 1}, by decide, by decide⟩ ⟨0, [0]⟩ (by decide)
  exact absurd ((lawful_iff _ (by decide)).mp hlawful).2 (by decide)

end AsnEnum

end Esnacc
