import Mathlib

/-!
Walks through a graph that keep no account of where they have been. A walk is a function
with fuel that returns `none` when the fuel does not suffice, so that it terminates if some
fuel does. If the walk at a node needs the walk at each of its successors with less fuel,
it terminates only where no infinite path starts; in a finite graph that means that no
node lies on a cycle.
-/

namespace Walk

variable {ι σ ε : Type}

/-- No node is reached from itself. -/
def Acyclic (next : ι → ι → Prop) : Prop := ∀ t, ¬ Relation.TransGen next t t

/-- Every path of a finite graph without cycles ends. -/
theorem Acyclic.acc [Finite ι] {next : ι → ι → Prop} (h : Acyclic next) (t : ι) :
    Acc (flip next) t := by
  have htrans : IsTrans ι (flip (Relation.TransGen next)) := ⟨fun a b c hab hbc => hbc.trans hab⟩
  have hirrefl : Std.Irrefl (flip (Relation.TransGen next)) := ⟨h⟩
  have hwf := Finite.wellFounded_of_trans_of_irrefl (flip (Relation.TransGen next))
  exact Subrelation.accessible (fun hnext => .single hnext) (hwf.apply t)

theorem acyclic_of_acc {next : ι → ι → Prop} (h : ∀ t, Acc (flip next) t) : Acyclic next := by
  intro t hcycle
  have hwf : WellFounded (Relation.TransGen (flip next)) := (WellFounded.intro h).transGen
  exact hwf.irrefl.irrefl t (Relation.transGen_swap.2 hcycle)

/-- A walk that returns has only finite paths before it. -/
theorem acc_of_fuel {next : ι → ι → Prop} {P : ℕ → ι → Prop} (hzero : ∀ t, ¬ P 0 t)
    (hstep : ∀ n t t', next t t' → P (n + 1) t → P n t') {n : ℕ} {t : ι} (h : P n t) :
    Acc (flip next) t := by
  induction n generalizing t with
  | zero => exact absurd h (hzero t)
  | succ n ih => exact .intro t fun t' hnext => ih (hstep n t t' hnext h)

/-- A walk that returns with some fuel returns the same with more. -/
theorem mono_of_succ {α : Type} {w : ℕ → Option α}
    (h : ∀ n r, w n = some r → w (n + 1) = some r) {n n' : ℕ} {r : α} (hle : n ≤ n')
    (hr : w n = some r) : w n' = some r := by
  induction hle with
  | refl => exact hr
  | step _ ih => exact h _ _ ih

/-! ### Visiting a list -/

/-- Visits the members of a list one after the other, and stops at an error. -/
def forEach (visit : σ → ι → Option (Except ε σ)) : List ι → σ → Option (Except ε σ)
  | [], s => some (.ok s)
  | a :: as, s =>
      match visit s a with
      | none => none
      | some (.error e) => some (.error e)
      | some (.ok s') => forEach visit as s'

variable {visit visit' : σ → ι → Option (Except ε σ)}

theorem forEach_mono (h : ∀ s a r, visit s a = some r → visit' s a = some r) {as : List ι} {s : σ}
    {r : Except ε σ} (hr : forEach visit as s = some r) : forEach visit' as s = some r := by
  induction as generalizing s with
  | nil => exact hr
  | cons a as ih =>
      rw [forEach] at hr ⊢
      cases hv : visit s a with
      | none => simp [hv] at hr
      | some q =>
          rw [h s a q hv]
          rw [hv] at hr
          cases q with
          | error e => exact hr
          | ok s' => exact ih hr

/-- If no member stops the visit, it comes to the end. -/
theorem forEach_ok {as : List ι} {s : σ} {q : Except ε σ}
    (h : ∀ a ∈ as, ∀ s r, visit s a = some r → ∃ s', r = .ok s')
    (hq : forEach visit as s = some q) : ∃ s', q = .ok s' := by
  induction as generalizing s with
  | nil =>
      cases hq
      exact ⟨s, rfl⟩
  | cons a as ih =>
      rw [forEach] at hq
      cases hv : visit s a with
      | none => simp [hv] at hq
      | some r =>
          obtain ⟨s', rfl⟩ := h a (by simp) s r hv
          rw [hv] at hq
          exact ih (fun b hb => h b (List.mem_cons_of_mem _ hb)) hq

/-- A visit that has come to the end has been at every member. -/
theorem visited_of_forEach {as : List ι} {s s' : σ} (h : forEach visit as s = some (.ok s'))
    {a : ι} (ha : a ∈ as) : ∃ s₁ s₂, visit s₁ a = some (.ok s₂) := by
  induction as generalizing s with
  | nil => cases ha
  | cons b as ih =>
      rw [forEach] at h
      cases hv : visit s b with
      | none => simp [hv] at h
      | some r =>
          rw [hv] at h
          cases r with
          | error e => cases h
          | ok s₂ =>
              rcases List.mem_cons.mp ha with rfl | ha
              · exact ⟨s, s₂, hv⟩
              · exact ih h ha

/-- A visit of a whole list visits each member, as long as nothing before it stops. -/
theorem forEach_visits {pre : List ι} {a : ι} {post : List ι} {s : σ} {I : σ → Prop}
    (hs : I s) (hpre : ∀ b ∈ pre, ∀ s r, I s → visit s b = some r → ∃ s', r = .ok s' ∧ I s')
    (h : (forEach visit (pre ++ a :: post) s).isSome) :
    ∃ s', I s' ∧ (visit s' a).isSome := by
  induction pre generalizing s with
  | nil =>
      refine ⟨s, hs, ?_⟩
      rw [List.nil_append, forEach] at h
      cases hv : visit s a with
      | none => simp [hv] at h
      | some q => rfl
  | cons b pre ih =>
      rw [List.cons_append, forEach] at h
      cases hv : visit s b with
      | none => simp [hv] at h
      | some q =>
          obtain ⟨s', rfl, hs'⟩ := hpre b (by simp) s q hs hv
          rw [hv] at h
          exact ih hs' (fun b hb => hpre b (List.mem_cons_of_mem _ hb)) h

/-- If each member is visited in time, given what its predecessors have left, then the whole
list is. -/
theorem forEach_terminates {visit : ℕ → σ → ι → Option (Except ε σ)}
    (hmono : ∀ n n' s a r, n ≤ n' → visit n s a = some r → visit n' s a = some r)
    {l : List ι} {I : List ι → σ → Prop}
    (h : ∀ pre a post s, l = pre ++ a :: post → I pre s →
      ∃ n r, visit n s a = some r ∧ ∀ s', r = .ok s' → I (pre ++ [a]) s')
    {s : σ} (hs : I [] s) : ∃ n r, forEach (visit n) l s = some r := by
  suffices hrest : ∀ pre rest s, l = pre ++ rest → I pre s →
      ∃ n r, forEach (visit n) rest s = some r from hrest [] l s rfl hs
  intro pre rest
  induction rest generalizing pre with
  | nil => exact fun s _ _ => ⟨0, _, rfl⟩
  | cons a rest ih =>
      intro s hall hI
      obtain ⟨n, r, hvisit, hnext⟩ := h pre a rest s hall hI
      cases r with
      | error e =>
          refine ⟨n, .error e, ?_⟩
          rw [forEach, hvisit]
      | ok s' =>
          obtain ⟨n', r, hrest⟩ := ih (pre ++ [a]) s' (by simp [hall]) (hnext s' rfl)
          refine ⟨max n n', r, ?_⟩
          rw [forEach, hmono n _ s a _ (le_max_left n n') hvisit]
          exact forEach_mono (fun s a r => hmono n' _ s a r (le_max_right n n')) hrest

end Walk
