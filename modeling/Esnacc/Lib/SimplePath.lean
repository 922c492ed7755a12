import Mathlib

/-!
Paths to a goal that enter nothing twice. A search that remembers what it has entered on the way
takes exactly these, and comes to the goal if and only if there is any path to it.
-/

namespace SimplePath

variable {κ : Type} {r : κ → κ → Prop} {goal : κ}

/-- A path to the goal that enters neither the goal on the way nor anything entered before. -/
inductive Simple (r : κ → κ → Prop) (goal : κ) : List κ → κ → Prop
  | last {entered : List κ} {u : κ} (h : r u goal) : Simple r goal entered u
  | step {entered : List κ} {u v : κ} (h : r u v) (hgoal : v ≠ goal) (hnew : v ∉ entered)
      (hrest : Simple r goal (v :: entered) v) : Simple r goal entered u

/-- A path with a number of steps on the way, which enters nothing that has been entered before. -/
inductive Path (r : κ → κ → Prop) (goal : κ) (entered : List κ) : ℕ → κ → Prop
  | last {u : κ} (h : r u goal) : Path r goal entered 0 u
  | step {u v : κ} {n : ℕ} (h : r u v) (hgoal : v ≠ goal) (hnew : v ∉ entered)
      (hrest : Path r goal entered n v) : Path r goal entered (n + 1) u

/-- A path comes through a place again, or could have entered it before. -/
theorem Path.enter {entered : List κ} {n : ℕ} {u : κ} (h : Path r goal entered n u) (v : κ) :
    Path r goal (v :: entered) n u ∨ ∃ m < n, Path r goal entered m v := by
  induction h with
  | last h => exact Or.inl (.last h)
  | @step u w n h hgoal hnew hrest ih =>
      by_cases hv : w = v
      · exact Or.inr ⟨n, Nat.lt_succ_self n, hv ▸ hrest⟩
      · rcases ih with hpath | ⟨m, hm, hpath⟩
        · exact Or.inl (.step h hgoal (by simp [hv, hnew]) hpath)
        · exact Or.inr ⟨m, Nat.lt_succ_of_lt hm, hpath⟩

theorem Path.of_enter {entered : List κ} {n : ℕ} {u v : κ}
    (h : Path r goal (v :: entered) n u) : Path r goal entered n u := by
  induction h with
  | last h => exact .last h
  | step h hgoal hnew _ ih =>
      exact .step h hgoal (fun hmem => hnew (List.mem_cons_of_mem _ hmem)) ih

/-- A shortest path is simple. -/
theorem Path.simple {entered : List κ} {n : ℕ} {u : κ} (h : Path r goal entered n u)
    (hshortest : ∀ m < n, ¬ Path r goal entered m u) : Simple r goal entered u := by
  induction n generalizing entered u with
  | zero =>
      cases h with
      | last h => exact .last h
  | succ n ih =>
      cases h with
      | @step _ v _ h hgoal hnew hrest =>
          have hshortest' : ∀ m < n, ¬ Path r goal entered m v := fun m hm hpath =>
            hshortest (m + 1) (Nat.succ_lt_succ hm) (.step h hgoal hnew hpath)
          -- if the rest came back to `v`, a shorter one would start there
          rcases hrest.enter v with hpath | ⟨m, hm, hpath⟩
          · refine .step h hgoal hnew (ih hpath fun m hm hpath' => ?_)
            exact hshortest' m hm hpath'.of_enter
          · exact absurd hpath (hshortest' m hm)

theorem exists_path {u : κ} (h : Relation.TransGen r u goal) : ∃ n, Path r goal [] n u := by
  induction h using Relation.TransGen.head_induction_on with
  | single h => exact ⟨0, .last h⟩
  | @head u v h _ ih =>
      by_cases hv : v = goal
      · exact ⟨0, .last (hv ▸ h)⟩
      · obtain ⟨n, hpath⟩ := ih
        exact ⟨n + 1, .step h hv List.not_mem_nil hpath⟩

theorem Simple.transGen {entered : List κ} {u : κ} (h : Simple r goal entered u) :
    Relation.TransGen r u goal := by
  induction h with
  | last h => exact .single h
  | step h _ _ _ ih => exact .head h ih

/-- Nothing is missed by not entering anything twice. -/
theorem simple_iff_transGen {u : κ} : Simple r goal [] u ↔ Relation.TransGen r u goal := by
  refine ⟨Simple.transGen, fun h => ?_⟩
  classical
  have hpath := exists_path h
  exact (Nat.find_spec hpath).simple fun m hm => Nat.find_min hpath hm

end SimplePath
