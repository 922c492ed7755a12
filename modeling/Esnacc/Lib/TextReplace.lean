import Mathlib

/-!
The replacement of a pattern in a text, from left to right and without overlaps. A head moves over
the text: in front of it stands what has been produced, behind it what is left. It replaces the
pattern where what is left begins with it, and copies a letter elsewhere. It never looks back, so a
pattern that what has been produced forms with what is left stays unseen.
-/

namespace TextReplace

variable {α : Type}

/-! ### Occurrences -/

def OccursAt (p s : List α) (k : ℕ) : Prop := p <+: s.drop k

instance [DecidableEq α] (p s : List α) (k : ℕ) : Decidable (OccursAt p s k) := by
  unfold OccursAt
  infer_instance

theorem occursAt_append (x p y : List α) : OccursAt p (x ++ p ++ y) x.length := by
  rw [OccursAt, List.append_assoc, List.drop_left]
  exact List.prefix_append p y

theorem OccursAt.exists_append {p s : List α} {k : ℕ} (h : OccursAt p s k) (hp : p ≠ []) :
    ∃ x y, s = x ++ p ++ y ∧ x.length = k := by
  obtain ⟨y, hy⟩ := h
  have hk : k ≤ s.length := by
    by_contra hlt
    rw [List.drop_eq_nil_of_le (by omega)] at hy
    exact hp (List.append_eq_nil_iff.mp hy).1
  refine ⟨s.take k, y, ?_, List.length_take_of_le hk⟩
  rw [List.append_assoc, hy, List.take_append_drop]

theorem OccursAt.of_isPrefix {p s t : List α} {k : ℕ} (h : OccursAt p s k) (hst : s <+: t) :
    OccursAt p t k := by
  obtain ⟨y, rfl⟩ := hst
  rcases Nat.le_total k s.length with hk | hk
  · rw [OccursAt, List.drop_append_of_le_length hk]
    exact h.trans (List.prefix_append _ _)
  · rw [OccursAt, List.drop_eq_nil_of_le hk, List.prefix_nil] at h
    rw [h]
    exact List.nil_prefix

/-- An occurrence that ends within a part of the text is one in that part. -/
theorem OccursAt.of_le {p s t : List α} {k : ℕ} (h : OccursAt p t k) (hst : s <+: t)
    (hk : k + p.length ≤ s.length) : OccursAt p s k := by
  obtain ⟨y, rfl⟩ := hst
  rw [OccursAt, List.drop_append_of_le_length (by omega)] at h
  exact List.prefix_of_prefix_length_le h (List.prefix_append _ _) (by rw [List.length_drop]; omega)

theorem exists_first_occurrence {p s : List α} {k : ℕ} (h : OccursAt p s k) :
    ∃ i ≤ k, OccursAt p s i ∧ ∀ j < i, ¬ OccursAt p s j := by
  classical
  have hex : ∃ i, OccursAt p s i := ⟨k, h⟩
  exact ⟨Nat.find hex, Nat.find_min' hex h, Nat.find_spec hex, fun j => Nat.find_min hex⟩

/-- No end of the pattern is its beginning. -/
def Unbordered (p : List α) : Prop := ∀ k, 0 < k → k < p.length → ¬ p.drop k <+: p

/-- Two occurrences of such a pattern do not overlap. -/
theorem Unbordered.disjoint {p s : List α} (hp : Unbordered p) {i j : ℕ} (hi : OccursAt p s i)
    (hj : OccursAt p s j) (hij : i < j) : i + p.length ≤ j := by
  by_contra hlt
  refine hp (j - i) (by omega) (by omega) (List.prefix_of_prefix_length_le ?_ hj (by simp))
  have hdrop := hi.drop (j - i)
  rwa [List.drop_drop, Nat.add_sub_cancel' hij.le] at hdrop

/-! ### First differences -/

theorem exists_first_difference (p r : List α) :
    p <+: r ∨ r <+: p ∨ ∃ g a b p' r', a ≠ b ∧ p = g ++ a :: p' ∧ r = g ++ b :: r' := by
  induction p generalizing r with
  | nil => exact .inl List.nil_prefix
  | cons a p ih =>
      cases r with
      | nil => exact .inr (.inl List.nil_prefix)
      | cons b r =>
          by_cases hab : a = b
          · subst hab
            rcases ih r with h | h | ⟨g, a', b', p', r', hne, rfl, rfl⟩
            · exact .inl ((List.prefix_cons_inj a).mpr h)
            · exact .inr (.inl ((List.prefix_cons_inj a).mpr h))
            · exact .inr (.inr ⟨a :: g, a', b', p', r', hne, rfl, rfl⟩)
          · exact .inr (.inr ⟨[], a, b, p, r, hab, rfl, rfl⟩)

theorem exists_last_difference (p r : List α) :
    p <:+ r ∨ r <:+ p ∨ ∃ g a b p' r', a ≠ b ∧ p = p' ++ a :: g ∧ r = r' ++ b :: g := by
  rcases exists_first_difference p.reverse r.reverse with h | h | ⟨g, a, b, p', r', hab, hp, hr⟩
  · exact .inl (List.reverse_prefix.mp h)
  · exact .inr (.inl (List.reverse_prefix.mp h))
  · refine .inr (.inr ⟨g.reverse, a, b, p'.reverse, r'.reverse, hab, ?_, ?_⟩)
    · simpa using congrArg List.reverse hp
    · simpa using congrArg List.reverse hr

/-- What stands behind the replacement at another place cannot end as the replacement does. -/
theorem eq_nil_of_last_difference {p r p' r' g y z v w : List α} {a b : α} (hab : a ≠ b)
    (hp : p = p' ++ a :: g) (hr : r = r' ++ b :: g) (hold : y ++ p ++ z = v ++ p)
    (hnew : y ++ r ++ z = w ++ r) : z = [] := by
  by_contra hz
  have hlen : (a :: g).length ≤ (g ++ z).length := by
    have := List.length_pos_iff.mpr hz
    rw [List.length_append, List.length_cons]
    omega
  have hpz : g ++ z <:+ v ++ p := hold ▸ ⟨y ++ p' ++ [a], by rw [hp]; simp⟩
  have hrz : g ++ z <:+ w ++ r := hnew ▸ ⟨y ++ r' ++ [b], by rw [hr]; simp⟩
  have hpg : a :: g <:+ v ++ p := ⟨v ++ p', by rw [hp]; simp⟩
  have hrg : b :: g <:+ w ++ r := ⟨w ++ r', by rw [hr]; simp⟩
  have ha := List.suffix_of_suffix_length_le hpg hpz hlen
  have hb := List.suffix_of_suffix_length_le hrg hrz hlen
  have heq := (List.suffix_of_suffix_length_le ha hb le_rfl).eq_of_length rfl
  exact hab (List.head_eq_of_cons_eq heq)

/-- Where the text first differs from `limit`, it has `b` for `a`. -/
def Deviates (a b : α) (limit s : List α) : Prop := ∃ h, h ++ [a] <+: limit ∧ h ++ [b] <+: s

theorem Deviates.not_isPrefix {a b : α} {limit s : List α} (h : Deviates a b limit s)
    (hab : a ≠ b) : ¬ limit <+: s := by
  intro hlimit
  obtain ⟨g, ha, hb⟩ := h
  have heq := List.prefix_of_prefix_length_le (ha.trans hlimit) hb (by simp)
  rw [List.prefix_append_right_inj] at heq
  exact hab (by simpa using heq)

/-- A replacement that puts `b` for `a` first never takes such a difference back. -/
theorem Deviates.replace {a b : α} {limit g p' r' y z : List α} (hab : a ≠ b)
    (h : Deviates a b limit (y ++ (g ++ a :: p') ++ z)) :
    Deviates a b limit (y ++ (g ++ b :: r') ++ z) := by
  obtain ⟨h, hlimit, hs⟩ := h
  have ha : y ++ g ++ [a] <+: y ++ (g ++ a :: p') ++ z := ⟨p' ++ z, by simp⟩
  have hb : y ++ g ++ [b] <+: y ++ (g ++ b :: r') ++ z := ⟨r' ++ z, by simp⟩
  rcases Nat.lt_trichotomy h.length (y ++ g).length with hlt | heq | hgt
  · have hbefore := List.prefix_of_prefix_length_le hs
      ((List.prefix_append (y ++ g) [a]).trans ha) (by simpa using hlt)
    exact ⟨h, hlimit, hbefore.trans ((List.prefix_append _ [b]).trans hb)⟩
  · have hlen : (h ++ [b]).length = (y ++ g ++ [a]).length := by
      rw [List.length_append, List.length_append, heq]
      rfl
    have hsame := (List.prefix_of_prefix_length_le hs ha hlen.le).eq_of_length hlen
    exact absurd (List.append_inj hsame heq).2 (by simpa using Ne.symm hab)
  · have hinside := List.prefix_of_prefix_length_le ha
      ((List.prefix_append h [b]).trans hs) (by simpa [Nat.add_assoc] using Nat.succ_le_of_lt hgt)
    exact ⟨y ++ g, (hinside.trans (List.prefix_append h [a])).trans hlimit, hb⟩

/-! ### The head -/

section Scan

variable [DecidableEq α] (p r : List α)

def scan : List α × List α → List α × List α
  | (w, []) => (w, [])
  | (w, c :: v) => if p <+: c :: v then (w ++ r, (c :: v).drop p.length) else (w ++ [c], v)

/-- What has been produced and what is left after `n` steps. -/
def scanned (s : List α) (n : ℕ) : List α × List α := (scan p r)^[n] ([], s)

def replaceAll (s : List α) : List α := (scanned p r s s.length).1

/-- The pattern occurs and begins in what has been produced. -/
def JointMatch (st : List α × List α) : Prop := ∃ k < st.1.length, OccursAt p (st.1 ++ st.2) k

instance (st : List α × List α) : Decidable (JointMatch p st) := by
  unfold JointMatch
  infer_instance

variable {p r}

theorem scan_replace (hp : p ≠ []) {v : List α} (h : p <+: v) (w : List α) :
    scan p r (w, v) = (w ++ r, v.drop p.length) := by
  cases v with
  | nil => exact absurd (List.prefix_nil.mp h) hp
  | cons c v => exact if_pos h

theorem scan_copy {c : α} {v : List α} (h : ¬ p <+: c :: v) (w : List α) :
    scan p r (w, c :: v) = (w ++ [c], v) := if_neg h

theorem length_scan_le (hp : p ≠ []) (st : List α × List α) :
    (scan p r st).2.length ≤ st.2.length - 1 := by
  obtain ⟨w, v⟩ := st
  cases v with
  | nil => exact Nat.zero_le _
  | cons c v =>
      by_cases h : p <+: c :: v
      · rw [scan_replace hp h, List.length_drop]
        have := List.length_pos_iff.mpr hp
        change (c :: v).length - p.length ≤ (c :: v).length - 1
        omega
      · rw [scan_copy h]
        exact le_rfl

theorem prefix_scan (st : List α × List α) : st.1 <+: (scan p r st).1 := by
  obtain ⟨w, v⟩ := st
  cases v with
  | nil => exact List.prefix_rfl
  | cons c v =>
      rw [scan]
      split
      · exact List.prefix_append w r
      · exact List.prefix_append w [c]

theorem scanned_succ (s : List α) (n : ℕ) :
    scanned p r s (n + 1) = scan p r (scanned p r s n) := Function.iterate_succ_apply' _ _ _

theorem prefix_iterate_scan (st : List α × List α) (m : ℕ) : st.1 <+: ((scan p r)^[m] st).1 := by
  induction m with
  | zero => exact List.prefix_rfl
  | succ m ih =>
      rw [Function.iterate_succ_apply']
      exact ih.trans (prefix_scan _)

theorem scanned_end (hp : p ≠ []) (s : List α) : (scanned p r s s.length).2 = [] := by
  have hle : ∀ n, (scanned p r s n).2.length ≤ s.length - n := by
    intro n
    induction n with
    | zero => exact le_rfl
    | succ n ih =>
        rw [scanned_succ]
        have := length_scan_le (r := r) hp (scanned p r s n)
        omega
  exact List.length_eq_zero_iff.mp (by have := hle s.length; omega)

/-- From any state the head copies to the end, or comes to an occurrence and replaces it. -/
theorem iterate_scan_cases (hp : p ≠ []) {m : ℕ} {w v t : List α}
    (h : (scan p r)^[m] (w, v) = (t, [])) :
    t = w ++ v ∨ ∃ u v' m', v = u ++ p ++ v' ∧ (scan p r)^[m'] (w ++ u ++ r, v') = (t, []) := by
  induction m generalizing w v with
  | zero =>
      obtain ⟨rfl, rfl⟩ := Prod.mk.inj h
      exact .inl (List.append_nil w).symm
  | succ m ih =>
      rw [Function.iterate_succ_apply] at h
      cases v with
      | nil => exact ih h
      | cons c v =>
          by_cases hfirst : p <+: c :: v
          · rw [scan_replace hp hfirst] at h
            obtain ⟨v', hv'⟩ := hfirst
            rw [← hv', List.drop_left] at h
            exact .inr ⟨[], v', m, hv'.symm, by rwa [List.append_nil]⟩
          · rw [scan_copy hfirst] at h
            rcases ih h with rfl | ⟨u, v', m', rfl, hrest⟩
            · exact .inl (by simp)
            · exact .inr ⟨c :: u, v', m', rfl, by simpa using hrest⟩

/-- From any time of the scan of a text to its end. -/
theorem replaceAll_cases (hp : p ≠ []) {s : List α} {n : ℕ} (hn : n ≤ s.length) :
    replaceAll p r s = (scanned p r s n).1 ++ (scanned p r s n).2 ∨
      ∃ u v' m, (scanned p r s n).2 = u ++ p ++ v' ∧
        (scan p r)^[m] ((scanned p r s n).1 ++ u ++ r, v') = (replaceAll p r s, []) := by
  refine iterate_scan_cases hp (m := s.length - n) ?_
  rw [← scanned_end hp s (r := r), replaceAll, scanned, scanned, ← Function.iterate_add_apply,
    Nat.sub_add_cancel hn]

end Scan

end TextReplace
