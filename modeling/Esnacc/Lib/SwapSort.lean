import Mathlib

/-!
The simplest of all sorts: every position is compared with every other one, in both directions, and
the two elements change their places when the one at the inner position is smaller. It looks as if
it could not sort, and sorts in descending order: the positions that the outer loop has passed stay
sorted, with the smallest of all elements at the last of them, and each round inserts one more.
-/

namespace SwapSort

variable {β : Type} [LinearOrder β]

/-- The body of the loops. -/
def exchange (a : ℕ → β) (i j : ℕ) : ℕ → β :=
  if a j < a i then Function.update (Function.update a j (a i)) i (a j) else a

/-- The inner loop. -/
def pass (n i : ℕ) (a : ℕ → β) : ℕ → β := (List.range n).foldl (fun a j => exchange a i j) a

def sort (n : ℕ) (a : ℕ → β) : ℕ → β := (List.range n).foldl (fun a i => pass n i a) a

/-! ### Nothing is lost -/

/-- The first `n` elements in another order, and all others as they were. -/
def Rearranged (n : ℕ) (a b : ℕ → β) : Prop :=
  ∃ σ : Equiv.Perm ℕ, (∀ k, σ k < n ↔ k < n) ∧ b = a ∘ σ

omit [LinearOrder β] in
theorem Rearranged.refl (n : ℕ) (a : ℕ → β) : Rearranged n a a := ⟨1, fun _ => Iff.rfl, rfl⟩

omit [LinearOrder β] in
theorem Rearranged.trans {n : ℕ} {a b c : ℕ → β} (hab : Rearranged n a b)
    (hbc : Rearranged n b c) : Rearranged n a c := by
  obtain ⟨σ, hσ, rfl⟩ := hab
  obtain ⟨τ, hτ, rfl⟩ := hbc
  exact ⟨σ * τ, fun k => (hσ (τ k)).trans (hτ k), rfl⟩

theorem exchange_of_lt {a : ℕ → β} {i j : ℕ} (h : a j < a i) :
    exchange a i j = a ∘ Equiv.swap i j := by
  rw [exchange, if_pos h]
  funext k
  by_cases hki : k = i
  · subst hki
    simp
  · rw [Function.update_of_ne hki]
    by_cases hkj : k = j
    · subst hkj
      simp
    · rw [Function.update_of_ne hkj, Function.comp_apply, Equiv.swap_apply_of_ne_of_ne hki hkj]

theorem exchange_of_le {a : ℕ → β} {i j : ℕ} (h : a i ≤ a j) : exchange a i j = a :=
  if_neg (not_lt.mpr h)

theorem exchange_rearranged {n : ℕ} (a : ℕ → β) {i j : ℕ} (hi : i < n) (hj : j < n) :
    Rearranged n a (exchange a i j) := by
  rcases lt_or_ge (a j) (a i) with h | h
  · refine ⟨Equiv.swap i j, fun k => ?_, exchange_of_lt h⟩
    rcases eq_or_ne k i with rfl | hki
    · simp [hi, hj]
    rcases eq_or_ne k j with rfl | hkj
    · simp [hi, hj]
    · rw [Equiv.swap_apply_of_ne_of_ne hki hkj]
  · rw [exchange_of_le h]
    exact .refl n a

section Rounds

variable {n i : ℕ}

theorem foldl_range_induction {γ : Type} {P : ℕ → γ → Prop} {f : γ → ℕ → γ} {c : γ}
    (h₀ : P 0 c) (hstep : ∀ m < n, ∀ c, P m c → P (m + 1) (f c m)) :
    P n ((List.range n).foldl f c) := by
  induction n with
  | zero => exact h₀
  | succ n ih =>
      rw [List.range_succ, List.foldl_concat]
      exact hstep n (Nat.lt_succ_self n) _ (ih fun m hm => hstep m (Nat.lt_succ_of_lt hm))

theorem pass_rearranged (hi : i < n) (a : ℕ → β) : Rearranged n a (pass n i a) :=
  foldl_range_induction (P := fun _ b => Rearranged n a b) (.refl n a)
    fun _ hm b hb => hb.trans (exchange_rearranged b hi hm)

theorem sort_rearranged (n : ℕ) (a : ℕ → β) : Rearranged n a (sort n a) :=
  foldl_range_induction (P := fun _ b => Rearranged n a b) (.refl n a)
    fun _ hm b hb => hb.trans (pass_rearranged hm b)

/-! ### What is sorted -/

/-- The first `i` elements are in descending order. -/
def Descending (i : ℕ) (a : ℕ → β) : Prop := ∀ p q, p < q → q < i → a q ≤ a p

/-- The element at `k` is the smallest of all. -/
def Least (n k : ℕ) (a : ℕ → β) : Prop := ∀ p < n, a k ≤ a p

/-- After `m` rounds of the first inner loop the first element is the smallest of those passed. -/
theorem pass_zero (n : ℕ) (a : ℕ → β) : Least n 0 (pass n 0 a) := by
  refine foldl_range_induction (P := fun m (b : ℕ → β) => ∀ p < m, b 0 ≤ b p) (by simp) ?_
  intro m hm b hb p hp
  rcases lt_or_ge (b m) (b 0) with h | h
  · rw [exchange_of_lt h, Function.comp_apply, Function.comp_apply, Equiv.swap_apply_left]
    rcases eq_or_ne p 0 with rfl | hp0
    · rw [Equiv.swap_apply_left]
    rcases eq_or_ne p m with rfl | hpm
    · rw [Equiv.swap_apply_right]
      exact h.le
    · rw [Equiv.swap_apply_of_ne_of_ne hp0 hpm]
      exact h.le.trans (hb p (by omega))
  · rw [exchange_of_le h]
    rcases Nat.lt_succ_iff_lt_or_eq.mp hp with hp | rfl
    · exact hb p hp
    · exact h

/-- A later inner loop after `m` rounds: what was sorted still is, what has been passed is not
smaller than the element that is being inserted, and the smallest of all is at its old place until
the loop gets there. -/
structure Inserting (n i m : ℕ) (b : ℕ → β) : Prop where
  sorted : Descending i b
  passed : ∀ p < m, p < i → b i ≤ b p
  least : Least n (if m < i then i - 1 else i) b

/-- The element that is being inserted changes its place with a smaller one. -/
theorem Inserting.exchanged (hi : i < n) {m : ℕ} (hmi : m < i) {b : ℕ → β}
    (hb : Inserting n i m b) (h : b m < b i) : Inserting n i (m + 1) (b ∘ Equiv.swap i m) := by
  obtain ⟨hsorted, hpassed, hleast⟩ := hb
  rw [if_pos hmi] at hleast
  have hleft : (b ∘ Equiv.swap i m) i = b m := by simp
  have hright : (b ∘ Equiv.swap i m) m = b i := by simp
  have hother {p : ℕ} (hpi : p ≠ i) (hpm : p ≠ m) : (b ∘ Equiv.swap i m) p = b p := by
    simp [Equiv.swap_apply_of_ne_of_ne hpi hpm]
  have hall : ∀ p < n, b (i - 1) ≤ (b ∘ Equiv.swap i m) p := by
    intro p hp
    rcases eq_or_ne p i with rfl | hpi
    · exact hleft ▸ hleast m (hmi.trans hi)
    rcases eq_or_ne p m with rfl | hpm
    · exact hright ▸ hleast i hi
    · exact hother hpi hpm ▸ hleast p hp
  refine ⟨fun p q hpq hq => ?_, fun p hp hpi => ?_, ?_⟩
  · rcases eq_or_ne q m with rfl | hqm
    · rw [hright, hother (by omega) (by omega)]
      exact hpassed p hpq (by omega)
    · rw [hother (by omega) hqm]
      rcases eq_or_ne p m with rfl | hpm
      · rw [hright]
        exact (hsorted p q hpq hq).trans h.le
      · rw [hother (by omega) hpm]
        exact hsorted p q hpq hq
  · rw [hleft]
    rcases Nat.lt_succ_iff_lt_or_eq.mp hp with hp | rfl
    · rw [hother (by omega) (by omega)]
      exact hsorted p m hp hmi
    · rw [hright]
      exact h.le
  · by_cases hlast : m + 1 < i
    · rw [if_pos hlast]
      intro p hp
      rw [hother (show i - 1 ≠ i by omega) (show i - 1 ≠ m by omega)]
      exact hall p hp
    · obtain rfl : m = i - 1 := by omega
      rw [if_neg hlast]
      intro p hp
      rw [hleft]
      exact hall p hp

theorem Inserting.kept {m : ℕ} (hmi : m < i) {b : ℕ → β} (hb : Inserting n i m b)
    (h : b i ≤ b m) : Inserting n i (m + 1) b := by
  obtain ⟨hsorted, hpassed, hleast⟩ := hb
  rw [if_pos hmi] at hleast
  refine ⟨hsorted, fun p hp hpi => ?_, ?_⟩
  · rcases Nat.lt_succ_iff_lt_or_eq.mp hp with hp | rfl
    · exact hpassed p hp hpi
    · exact h
  · by_cases hlast : m + 1 < i
    · rwa [if_pos hlast]
    · obtain rfl : m = i - 1 := by omega
      rw [if_neg hlast]
      exact fun p hp => h.trans (hleast p hp)

theorem Inserting.step (hi : i < n) {m : ℕ} (hm : m < n) {b : ℕ → β}
    (hb : Inserting n i m b) : Inserting n i (m + 1) (exchange b i m) := by
  rcases lt_or_ge m i with hmi | hmi
  · rcases lt_or_ge (b m) (b i) with h | h
    · rw [exchange_of_lt h]
      exact hb.exchanged hi hmi h
    · rw [exchange_of_le h]
      exact hb.kept hmi h
  · -- the smallest of all is not exchanged any more
    obtain ⟨hsorted, -, hleast⟩ := hb
    rw [if_neg (Nat.not_lt.mpr hmi)] at hleast
    rw [exchange_of_le (hleast m hm)]
    refine ⟨hsorted, fun p hp hpi => hleast p (hpi.trans hi), ?_⟩
    rwa [if_neg (by omega)]

/-- The positions that the outer loop has passed. -/
structure Passed (n i : ℕ) (b : ℕ → β) : Prop where
  sorted : Descending i b
  least : 0 < i → Least n (i - 1) b

theorem Passed.step (hi : i < n) {b : ℕ → β} (hb : Passed n i b) :
    Passed n (i + 1) (pass n i b) := by
  rcases Nat.eq_zero_or_pos i with rfl | hpos
  · exact ⟨fun p q hpq hq => by omega, fun _ => pass_zero n b⟩
  · have hinsert : Inserting n i n (pass n i b) :=
      foldl_range_induction (P := Inserting n i)
        ⟨hb.sorted, fun p hp => absurd hp (Nat.not_lt_zero p), by
          rw [if_pos hpos]
          exact hb.least hpos⟩
        fun m hm c hc => hc.step hi hm
    obtain ⟨hsorted, -, hleast⟩ := hinsert
    rw [if_neg (by omega)] at hleast
    refine ⟨fun p q hpq hq => ?_, fun _ => by rwa [Nat.add_sub_cancel]⟩
    rcases Nat.lt_succ_iff_lt_or_eq.mp hq with hq | rfl
    · exact hsorted p q hpq hq
    · exact hleast p (hpq.trans hi)

/-- The first `n` elements end up in descending order. -/
theorem sort_descending (n : ℕ) (a : ℕ → β) : Descending n (sort n a) :=
  (foldl_range_induction (P := Passed n)
    ⟨fun _ q _ hq => absurd hq (Nat.not_lt_zero q), fun h => absurd h (Nat.lt_irrefl 0)⟩
    fun _ hm _ hb => hb.step hm).sorted

end Rounds

/-! ### Where an element goes -/

/-- The first `n` elements. -/
def elements (n : ℕ) (a : ℕ → β) : Finset β := (Finset.range n).image a

theorem Rearranged.elements_eq {n : ℕ} {a b : ℕ → β} (h : Rearranged n a b) :
    elements n b = elements n a := by
  obtain ⟨σ, hσ, rfl⟩ := h
  ext x
  simp only [elements, Finset.mem_image, Finset.mem_range, Function.comp_apply]
  constructor
  · rintro ⟨k, hk, rfl⟩
    exact ⟨σ k, (hσ k).mpr hk, rfl⟩
  · rintro ⟨k, hk, rfl⟩
    refine ⟨σ.symm k, (hσ _).mp (by simpa using hk), by simp⟩

omit [LinearOrder β] in
theorem Rearranged.injOn {n : ℕ} {a b : ℕ → β} (h : Rearranged n a b)
    (ha : Set.InjOn a (Set.Iio n)) : Set.InjOn b (Set.Iio n) := by
  obtain ⟨σ, hσ, rfl⟩ := h
  intro p hp q hq hpq
  exact σ.injective (ha ((hσ p).mpr hp) ((hσ q).mpr hq) hpq)

/-- In strictly descending order an element stands behind exactly the larger ones. -/
theorem card_larger {n k : ℕ} {b : ℕ → β} (hb : Descending n b) (hinj : Set.InjOn b (Set.Iio n))
    (hk : k < n) : ((elements n b).filter (b k < ·)).card = k := by
  have heq : (elements n b).filter (b k < ·) = (Finset.range k).image b := by
    ext x
    simp only [elements, Finset.mem_filter, Finset.mem_image, Finset.mem_range]
    constructor
    · rintro ⟨⟨p, hp, rfl⟩, hlt⟩
      refine ⟨p, ?_, rfl⟩
      by_contra hkp
      rcases Nat.eq_or_lt_of_le (Nat.not_lt.mp hkp) with rfl | hkp
      · exact lt_irrefl _ hlt
      · exact not_le.mpr hlt (hb k p hkp hp)
    · rintro ⟨p, hp, rfl⟩
      refine ⟨⟨p, hp.trans hk, rfl⟩, lt_of_le_of_ne (hb p k hp hk) fun h => ?_⟩
      exact absurd (hinj hk (hp.trans hk) h) (Nat.ne_of_gt hp)
  rw [heq, Finset.card_image_of_injOn, Finset.card_range]
  intro p hp q hq hpq
  exact hinj (Nat.lt_trans (by simpa using hp) hk) (Nat.lt_trans (by simpa using hq) hk) hpq

end SwapSort
