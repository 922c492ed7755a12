import Mathlib

/-!
Sorting by exchange: the smallest element is brought to the front by swapping it with every
smaller one that comes, and the rest is sorted in turn. The sort is not stable, so that elements
with the same key end up in an order that depends on where they began.
-/

namespace ExchangeSort

variable {β γ : Type} (key : β → ℕ)

/-- The inner loop: the smallest of `x` and what follows it, and what stands behind it then. -/
def pass (x : β) : List β → β × List β
  | [] => (x, [])
  | y :: ys =>
      if key y < key x then
        let r := pass y ys
        (r.1, x :: r.2)
      else
        let r := pass x ys
        (r.1, y :: r.2)

/-- The outer loop, over as many elements as there are. -/
def loop : ℕ → List β → List β
  | 0, xs => xs
  | _ + 1, [] => []
  | n + 1, x :: xs =>
      let r := pass key x xs
      r.1 :: loop n r.2

def sort (xs : List β) : List β := loop key xs.length xs

theorem pass_perm (x : β) (xs : List β) :
    ((pass key x xs).1 :: (pass key x xs).2).Perm (x :: xs) := by
  induction xs generalizing x with
  | nil => exact List.Perm.refl _
  | cons y ys ih =>
      rw [pass]
      split
      · exact ((List.Perm.swap _ _ _).trans ((ih y).cons x))
      · exact ((List.Perm.swap _ _ _).trans ((ih x).cons y)).trans (List.Perm.swap _ _ _)

theorem pass_le (x : β) (xs : List β) :
    key (pass key x xs).1 ≤ key x ∧
      ∀ y ∈ (pass key x xs).2, key (pass key x xs).1 ≤ key y := by
  induction xs generalizing x with
  | nil => exact ⟨Nat.le_refl _, fun y hy => (List.not_mem_nil hy).elim⟩
  | cons y ys ih =>
      rw [pass]
      by_cases hlt : key y < key x
      · rw [if_pos hlt]
        obtain ⟨hle, hrest⟩ := ih y
        have hx := hle.trans hlt.le
        exact ⟨hx, List.forall_mem_cons.mpr ⟨hx, hrest⟩⟩
      · rw [if_neg hlt]
        obtain ⟨hle, hrest⟩ := ih x
        exact ⟨hle, List.forall_mem_cons.mpr ⟨hle.trans (Nat.le_of_not_lt hlt), hrest⟩⟩

theorem pass_of_le {x : β} {xs : List β} (h : ∀ y ∈ xs, key x ≤ key y) :
    pass key x xs = (x, xs) := by
  induction xs with
  | nil => rfl
  | cons y ys ih =>
      obtain ⟨hy, hys⟩ := List.forall_mem_cons.mp h
      rw [pass, if_neg (Nat.not_lt.mpr hy), ih hys]

theorem length_pass (x : β) (xs : List β) :
    (pass key x xs).2.length = xs.length :=
  Nat.succ.inj (pass_perm key x xs).length_eq

theorem loop_perm (n : ℕ) (xs : List β) : (loop key n xs).Perm xs := by
  induction n generalizing xs with
  | zero => exact List.Perm.refl _
  | succ n ih =>
      cases xs with
      | nil => exact List.Perm.refl _
      | cons x xs => exact ((ih _).cons _).trans (pass_perm key x xs)

theorem loop_sorted {n : ℕ} {xs : List β} (h : xs.length ≤ n) :
    (loop key n xs).Pairwise fun a b => key a ≤ key b := by
  induction n generalizing xs with
  | zero =>
      obtain rfl := List.eq_nil_of_length_eq_zero (Nat.le_zero.mp h)
      exact .nil
  | succ n ih =>
      cases xs with
      | nil => exact .nil
      | cons x xs =>
          have hlen := length_pass key x xs
          refine List.pairwise_cons.mpr ⟨fun y hy => ?_, ih ?_⟩
          · exact (pass_le key x xs).2 y ((loop_perm key n _).subset hy)
          · rw [hlen]
            exact Nat.le_of_succ_le_succ h

theorem loop_of_sorted {n : ℕ} {xs : List β}
    (h : xs.Pairwise fun a b => key a ≤ key b) : loop key n xs = xs := by
  induction n generalizing xs with
  | zero => rfl
  | succ n ih =>
      cases xs with
      | nil => rfl
      | cons x xs =>
          obtain ⟨hx, hxs⟩ := List.pairwise_cons.mp h
          rw [loop, pass_of_le key hx, ih hxs]

theorem sort_perm (xs : List β) : (sort key xs).Perm xs := loop_perm key _ xs

theorem sort_sorted (xs : List β) : (sort key xs).Pairwise fun a b => key a ≤ key b :=
  loop_sorted key (Nat.le_refl _)

theorem sort_of_sorted {xs : List β} (h : xs.Pairwise fun a b => key a ≤ key b) :
    sort key xs = xs :=
  loop_of_sorted key h

/-- Sorting by the key gives the order `lt` for every order of declaration exactly when the key
tells apart whatever `lt` does. -/
theorem sort_pairwise_iff {lt : β → β → Prop} (hasymm : ∀ a b, lt a b → ¬ lt b a)
    {xs : List β} (htotal : ∀ a ∈ xs, ∀ b ∈ xs, a ≠ b → lt a b ∨ lt b a) (hnodup : xs.Nodup) :
    (∀ ys, ys.Perm xs → (sort key ys).Pairwise lt) ↔
      ∀ a ∈ xs, ∀ b ∈ xs, lt a b → key a < key b := by
  constructor
  · intro hall a ha b hb hab
    by_contra hkey
    have hkey : key b ≤ key a := Nat.le_of_not_lt hkey
    have hsorted := sort_sorted key xs
    have hcanonical := hall xs (List.Perm.refl xs)
    have hmem := (sort_perm key xs).mem_iff.mpr ha
    obtain ⟨s, t, hst⟩ := List.append_of_mem hmem
    have hne : a ≠ b := fun h => hasymm a b hab (h ▸ hab)
    have hmemb := (sort_perm key xs).mem_iff.mpr hb
    rw [hst] at hsorted hcanonical hmemb
    rcases List.mem_append.mp hmemb with hs | ht
    · exact hasymm a b hab ((List.pairwise_append.mp hcanonical).2.2 b hs a List.mem_cons_self)
    · rcases List.mem_cons.mp ht with rfl | ht
      · exact hne rfl
      · obtain ⟨u, v, rfl⟩ := List.append_of_mem ht
        have hle : key a ≤ key b := (List.pairwise_cons.mp
          (List.pairwise_append.mp hsorted).2.1).1 b (List.mem_append_right u List.mem_cons_self)
        have heq : key a = key b := Nat.le_antisymm hle hkey
        -- The two change their places, and the list stays sorted.
        have hswap : (s ++ b :: (u ++ a :: v)).Pairwise fun a b => key a ≤ key b := by
          have hkeys : (s ++ b :: (u ++ a :: v)).map key = (s ++ a :: (u ++ b :: v)).map key := by
            simp only [List.map_append, List.map_cons, heq]
          have hmap := List.pairwise_map.mpr hsorted
          rw [← hkeys] at hmap
          exact List.pairwise_map.mp hmap
        have hperm : (s ++ b :: (u ++ a :: v)).Perm xs := by
          refine List.Perm.trans ?_ (hst ▸ sort_perm key xs)
          refine List.Perm.append_left s ?_
          have hleft : (b :: (u ++ a :: v)).Perm (a :: b :: (u ++ v)) :=
            (List.perm_middle.cons b).trans (List.Perm.swap a b _)
          have hright : (a :: (u ++ b :: v)).Perm (a :: b :: (u ++ v)) := List.perm_middle.cons a
          exact hleft.trans hright.symm
        have hcanonical' := hall _ hperm
        rw [sort_of_sorted key hswap] at hcanonical'
        exact hasymm a b hab ((List.pairwise_cons.mp
          (List.pairwise_append.mp hcanonical').2.1).1 a
            (List.mem_append_right u List.mem_cons_self))
  · intro hkeys ys hys
    have hnodup' : (sort key ys).Nodup := ((sort_perm key ys).trans hys).nodup_iff.mpr hnodup
    have hmem : ∀ a, a ∈ sort key ys → a ∈ xs := fun a ha =>
      ((sort_perm key ys).trans hys).subset ha
    refine ((sort_sorted key ys).and hnodup').imp_of_mem fun {a b} ha hb h => ?_
    rcases htotal a (hmem a ha) b (hmem b hb) h.2 with hab | hba
    · exact hab
    · exact absurd (hkeys b (hmem b hb) a (hmem a ha) hba) (Nat.not_lt.mpr h.1)

/-- Elements that carry something else along are sorted with it. -/
theorem pass_map (f : γ → β) (x : γ) (xs : List γ) :
    pass key (f x) (xs.map f) =
      (f (pass (key ∘ f) x xs).1, (pass (key ∘ f) x xs).2.map f) := by
  induction xs generalizing x with
  | nil => rfl
  | cons y ys ih =>
      rw [List.map_cons, pass, pass]
      by_cases hlt : key (f y) < key (f x)
      · rw [if_pos hlt, if_pos (show (key ∘ f) y < (key ∘ f) x from hlt), ih y]
        rfl
      · rw [if_neg hlt, if_neg (show ¬ (key ∘ f) y < (key ∘ f) x from hlt), ih x]
        rfl

theorem loop_map (f : γ → β) (n : ℕ) (xs : List γ) :
    loop key n (xs.map f) = (loop (key ∘ f) n xs).map f := by
  induction n generalizing xs with
  | zero => rfl
  | succ n ih =>
      cases xs with
      | nil => rfl
      | cons x xs =>
          rw [List.map_cons, loop, loop, pass_map]
          dsimp only
          rw [ih, List.map_cons]

theorem sort_map (f : γ → β) (xs : List γ) :
    sort key (xs.map f) = (sort (key ∘ f) xs).map f := by
  rw [sort, List.length_map, loop_map]
  rfl

end ExchangeSort
