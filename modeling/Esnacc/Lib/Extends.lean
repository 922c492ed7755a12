import Mathlib

/-!
Programs that can fail, compared by what they return: one extends another if it returns the same
wherever the other returns at all.
-/

variable {σ ε α β : Type}

/-- Wherever `m` returns, `m'` returns the same. -/
def Extends (m m' : StateT σ (Except ε) α) : Prop :=
  ∀ s r, m.run s = .ok r → m'.run s = .ok r

namespace Extends

variable {m m' : StateT σ (Except ε) α}

theorem refl (m : StateT σ (Except ε) α) : Extends m m := fun _ _ h => h

/-- A program that never returns. -/
theorem of_fails (h : ∀ s r, m.run s ≠ .ok r) : Extends m m' := fun s r hr => absurd hr (h s r)

theorem bind {f f' : α → StateT σ (Except ε) β} (hm : Extends m m')
    (hf : ∀ a, Extends (f a) (f' a)) : Extends (m >>= f) (m' >>= f') := by
  intro s r h
  rw [StateT.run_bind] at h ⊢
  cases hrun : m.run s with
  | error e =>
      rw [hrun] at h
      cases h
  | ok q =>
      rw [hrun] at h
      rw [hm s q hrun]
      exact hf q.1 q.2 r h

theorem bind_left {f : α → StateT σ (Except ε) β} (hm : Extends m m') :
    Extends (m >>= f) (m' >>= f) := hm.bind fun a => refl (f a)

theorem bind_right {f f' : α → StateT σ (Except ε) β} (m : StateT σ (Except ε) α)
    (hf : ∀ a, Extends (f a) (f' a)) : Extends (m >>= f) (m >>= f') := (refl m).bind hf

end Extends
