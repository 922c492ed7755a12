import Mathlib

/-!
Labelled transition systems. A system is given by its step relation; a run keeps
the list of its labels, so that an invariant may speak about the past. A run of
`restrict step ok` is a run of which every step meets the condition `ok`.
-/

namespace Transition

variable {σ ℓ : Type}

/-- From `s₀` the system reaches a state by steps with the given labels. -/
inductive Run (step : σ → ℓ → σ → Prop) (s₀ : σ) : List ℓ → σ → Prop
  | nil : Run step s₀ [] s₀
  | snoc {trace : List ℓ} {s s' : σ} {l : ℓ} :
      Run step s₀ trace s → step s l s' → Run step s₀ (trace ++ [l]) s'

/-- The steps that meet a condition on the state before and the label. -/
def restrict (step : σ → ℓ → σ → Prop) (ok : σ → ℓ → Prop) : σ → ℓ → σ → Prop :=
  fun s l s' => step s l s' ∧ ok s l

section Rules

variable {step : σ → ℓ → σ → Prop} {s₀ s s' : σ} {trace trace' : List ℓ}

theorem Run.single {l : ℓ} (h : step s₀ l s) : Run step s₀ [l] s := .snoc .nil h

theorem Run.trans (h : Run step s₀ trace s) (h' : Run step s trace' s') :
    Run step s₀ (trace ++ trace') s' := by
  induction h' with
  | nil => rwa [List.append_nil]
  | snoc _ hstep ih =>
      rw [← List.append_assoc]
      exact .snoc ih hstep

/-- What holds at the start and is kept by every step holds in every state that
is reached. -/
theorem Run.invariant {P : List ℓ → σ → Prop} (h : Run step s₀ trace s) (h₀ : P [] s₀)
    (hstep : ∀ trace s l s', P trace s → step s l s' → P (trace ++ [l]) s') : P trace s := by
  induction h with
  | nil => exact h₀
  | snoc _ hlast ih => exact hstep _ _ _ _ ih hlast

/-- An invariant of the states alone. -/
theorem Run.state_invariant {P : σ → Prop} (h : Run step s₀ trace s) (h₀ : P s₀)
    (hstep : ∀ s l s', P s → step s l s' → P s') : P s :=
  @Run.invariant σ ℓ step s₀ s trace (fun _ => P) h h₀ fun _ s l s' => hstep s l s'

theorem Run.of_restrict {ok : σ → ℓ → Prop} (h : Run (restrict step ok) s₀ trace s) :
    Run step s₀ trace s := by
  induction h with
  | nil => exact .nil
  | snoc _ hlast ih => exact .snoc ih hlast.1

theorem Run.restrict_of_forall {ok : ℓ → Prop} (h : Run step s₀ trace s)
    (hok : ∀ l ∈ trace, ok l) : Run (restrict step fun _ l => ok l) s₀ trace s := by
  induction h with
  | nil => exact .nil
  | snoc _ hlast ih =>
      rw [List.forall_mem_append] at hok
      exact .snoc (ih hok.1) ⟨hlast, hok.2 _ (List.mem_singleton_self _)⟩

/-- A condition on the labels holds of the whole trace. -/
theorem Run.forall_label {ok : ℓ → Prop} (h : Run (restrict step fun _ l => ok l) s₀ trace s) :
    ∀ l ∈ trace, ok l := by
  induction h with
  | nil => simp
  | snoc _ hlast ih =>
      intro l hl
      rcases List.mem_append.mp hl with hl | hl
      · exact ih l hl
      · rw [List.mem_singleton.mp hl]
        exact hlast.2

end Rules

end Transition
