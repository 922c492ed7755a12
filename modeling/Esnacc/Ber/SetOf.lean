import Esnacc.Ber.Deck

/-!
`AsnSetOf<T>` of the distinguished encoding rules: every element is encoded into a
buffer of its own, the buffers are sorted, and their cards are laid on the output.
-/

namespace Esnacc

open BitString

namespace AsnSetOf

variable {T : Type}

/-- `std::list<AsnBuf>::sort()`, a stable sort. Every comparison leaves both
buffers rewound, and a list of one buffer is not compared at all. -/
def sort (bufList : List Deck) : List Deck :=
  if bufList.length < 2 then bufList
  else (bufList.mergeSort fun lhs rhs => !Deck.lt rhs lhs).map Deck.resetMode

/-- The buffers of the elements and the total length, modulo the width of an
`AsnLen`. Each element is encoded into a copy of an empty buffer, which holds an
empty card. -/
def encodeAll (bEnc : T → Deck → ℕ × Deck) (value : List T) : ℕ × List Deck :=
  (((value.map fun x => (bEnc x [Card.new]).1).sum) % 2 ^ 64,
    value.map fun x => (bEnc x [Card.new]).2)

/-- `BEncContent`, built without `USE_INDEF_LEN`. -/
def bEncContent (bEnc : T → Deck → ℕ × Deck) (value : List T) (b : Deck) : ℕ × Deck :=
  ((encodeAll bEnc value).1,
    (sort (encodeAll bEnc value).2).reverse.foldl Deck.splice b)

/-- What the element codec writes into an empty buffer. -/
def encoding (bEnc : T → Deck → ℕ × Deck) (x : T) : List Octet := (bEnc x [Card.new]).2.octets

/-- The element encodings in ascending lexicographic order of their octets. -/
def canonical (bEnc : T → Deck → ℕ × Deck) (value : List T) : List (List Octet) :=
  (value.map (encoding bEnc)).mergeSort fun x y => decide (x ≤ y)

theorem canonical_perm (bEnc : T → Deck → ℕ × Deck) (value : List T) :
    (canonical bEnc value).Perm (value.map (encoding bEnc)) :=
  List.mergeSort_perm _ _

theorem canonical_ascending (bEnc : T → Deck → ℕ × Deck) (value : List T) :
    (canonical bEnc value).Pairwise (· ≤ ·) := by
  have htrans : ∀ x y z : List Octet, decide (x ≤ y) → decide (y ≤ z) → decide (x ≤ z) := by
    intro x y z hxy hyz
    exact decide_eq_true (List.le_trans (of_decide_eq_true hxy) (of_decide_eq_true hyz))
  have htotal : ∀ x y : List Octet, decide (x ≤ y) || decide (y ≤ x) := by
    intro x y
    simpa using List.le_total x y
  exact (List.pairwise_mergeSort htrans htotal _).imp of_decide_eq_true

/-- A list of octet strings has one ascending arrangement only. -/
theorem canonical_eq_of_perm (bEnc : T → Deck → ℕ × Deck) {value value' : List T}
    (h : value.Perm value') : canonical bEnc value = canonical bEnc value' := by
  have hperm : (canonical bEnc value).Perm (canonical bEnc value') :=
    (canonical_perm bEnc value).trans ((h.map _).trans (canonical_perm bEnc value').symm)
  exact hperm.eq_of_pairwise (fun a b _ _ hab hba => List.le_antisymm hab hba)
    (canonical_ascending bEnc value) (canonical_ascending bEnc value')

theorem map_octets_sort (bufList : List Deck) :
    (sort bufList).map Deck.octets =
      (bufList.map Deck.octets).mergeSort fun x y => decide (x ≤ y) := by
  unfold sort
  split
  · next h =>
      match bufList, h with
      | [], _ => simp
      | [b], _ => simp
  · have hle : ∀ lhs ∈ bufList, ∀ rhs ∈ bufList,
        (!Deck.lt rhs lhs) = decide (lhs.octets ≤ rhs.octets) := by
      intro lhs _ rhs _
      rw [Deck.lt_eq, ← decide_not]
      exact decide_eq_decide.mpr List.not_lt
    rw [List.map_map, ← List.map_mergeSort hle]
    simp [Function.comp_def]

/-- After sorting, only a buffer that was not compared may have been read. -/
theorem sort_intact (bufList : List Deck) :
    (∃ d, sort bufList = [d]) ∨ ∀ d ∈ sort bufList, d.Intact := by
  unfold sort
  split
  · next h =>
      match bufList, h with
      | [], _ => exact .inr (by simp)
      | [d], _ => exact .inl ⟨d, rfl⟩
  · right
    intro d hd
    obtain ⟨e, -, rfl⟩ := List.mem_map.mp hd
    exact Deck.intact_resetMode e

/-- `b` became `b'` by laying octets on top. What lay below is as before, except
where `b` has a card that was read to its end and written to afterwards. -/
def Writes (b b' : Deck) (xs : List Octet) : Prop :=
  ∃ cards kept, b' = cards ++ kept ∧ Deck.octets cards = xs ∧
    (b.Intact → Deck.octets kept = b.octets)

theorem writes_bEncContent (bEnc : T → Deck → ℕ × Deck) (value : List T) (b : Deck) :
    Writes b (bEncContent bEnc value b).2 (canonical bEnc value).flatten := by
  have hoctets : ((sort (encodeAll bEnc value).2).map Deck.octets).flatten =
      (canonical bEnc value).flatten := by
    rw [map_octets_sort, encodeAll, List.map_map]
    rfl
  rw [← hoctets]
  show Writes b ((sort (encodeAll bEnc value).2).reverse.foldl Deck.splice b) _
  rcases sort_intact (encodeAll bEnc value).2 with ⟨d, hd⟩ | hintact
  · rw [hd]
    exact ⟨d, b.dropEmptyCard, Deck.splice_eq b d, by simp,
      fun h => h.octets_dropEmptyCard⟩
  · obtain ⟨cards, kept, hfold, hcards, hkept⟩ :=
      Deck.foldl_splice (sort (encodeAll bEnc value).2).reverse
        (fun d hd => hintact d (List.mem_reverse.mp hd)) [] b (by simp [Deck.Intact])
    refine ⟨cards, kept, hfold, ?_, hkept⟩
    rw [hcards, List.reverse_reverse]
    simp

/-- Arrangements of one collection have one encoding: its element encodings in
ascending order, each as often as it occurs. -/
theorem bEncContent_canonical (bEnc : T → Deck → ℕ × Deck) {value value' : List T}
    (h : value.Perm value') (b b' : Deck) :
    Writes b (bEncContent bEnc value b).2 (canonical bEnc value).flatten ∧
      Writes b' (bEncContent bEnc value' b').2 (canonical bEnc value).flatten ∧
      (bEncContent bEnc value b).1 = (bEncContent bEnc value' b').1 ∧
      (canonical bEnc value).Pairwise (· ≤ ·) ∧
      (canonical bEnc value).Perm (value.map (encoding bEnc)) := by
  refine ⟨writes_bEncContent bEnc value b, ?_, ?_, canonical_ascending bEnc value,
    canonical_perm bEnc value⟩
  · rw [canonical_eq_of_perm bEnc h]
    exact writes_bEncContent bEnc value' b'
  · have hsum : (value.map fun x => (bEnc x [Card.new]).1).sum =
        (value'.map fun x => (bEnc x [Card.new]).1).sum := (h.map _).sum_eq
    show _ % 2 ^ 64 = _ % 2 ^ 64
    rw [hsum]

/-- Two elements of one octet each, in either order. -/
theorem bEncContent_canonical_swap :
    let bEnc : Octet → Deck → ℕ × Deck := fun x d => (1, d.putByteRvs x)
    Writes [] (bEncContent bEnc [7, 3] []).2 [3, 7] ∧
      Writes [] (bEncContent bEnc [3, 7] []).2 [3, 7] := by
  intro bEnc
  have hperm : List.Perm ([7, 3] : List Octet) [3, 7] := List.Perm.swap 3 7 []
  have hcanonical : canonical bEnc ([7, 3] : List Octet) = [[3], [7]] := by
    simp only [canonical, encoding, bEnc, Deck.octets_putByteRvs, Deck.octets_new,
      List.map_cons, List.map_nil]
    simp [List.mergeSort, List.merge]
    decide
  have h := bEncContent_canonical bEnc hperm [] []
  rw [hcanonical] at h
  exact ⟨h.1, h.2.1⟩

end AsnSetOf

end Esnacc
