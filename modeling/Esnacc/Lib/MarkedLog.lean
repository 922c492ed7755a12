import Mathlib.Data.List.Basic
import Mathlib.Tactic.Common

/-!
A log that many nested procedures share, with one mark. A procedure sets the mark to the end of the
log when it is entered, and finds at its end that it has failed when the log reaches past the mark.
A procedure that is called from it sets the same mark, so what has been logged before that call is
no longer seen. Some things are logged elsewhere, where nobody looks.

The steps of a procedure, in the order in which they happen, decide what it finds.
-/

namespace Esnacc.MarkedLog

/-- A procedure is entered, something is logged, something is logged elsewhere. -/
inductive Step where
  | enter
  | fault
  | lost
  deriving DecidableEq, Repr

/-- Whether the log reaches past its mark after the steps. -/
def unseen : Bool → List Step → Bool
  | b, [] => b
  | _, .enter :: steps => unseen false steps
  | _, .fault :: steps => unseen true steps
  | b, .lost :: steps => unseen b steps

/-- Nothing is logged, here or elsewhere. -/
def Quiet (steps : List Step) : Prop := .fault ∉ steps ∧ .lost ∉ steps

/-- The last thing that is logged is logged after the last procedure has been entered. -/
def Loud (steps : List Step) : Prop := unseen false steps = true

instance (steps : List Step) : Decidable (Quiet steps) := inferInstanceAs (Decidable (_ ∧ _))

instance (steps : List Step) : Decidable (Loud steps) := inferInstanceAs (Decidable (_ = _))

/-- What the steps of a procedure leave when it logs for itself alone. -/
def apart (steps : List Step) : List Step := if Quiet steps then [] else [.lost]

theorem unseen_append (b : Bool) (steps rest : List Step) :
    unseen b (steps ++ rest) = unseen (unseen b steps) rest := by
  induction steps generalizing b with
  | nil => rfl
  | cons step steps ih =>
      cases step with
      | enter => exact ih false
      | fault => exact ih true
      | lost => exact ih b

/-- What is seen has been logged. -/
theorem fault_mem_of_unseen {steps : List Step} (h : unseen false steps = true) :
    .fault ∈ steps := by
  induction steps with
  | nil => cases h
  | cons step steps ih =>
      cases step with
      | enter => exact List.mem_cons_of_mem _ (ih h)
      | fault => exact List.mem_cons_self
      | lost => exact List.mem_cons_of_mem _ (ih h)

theorem not_loud_of_quiet {steps : List Step} (h : Quiet steps) : ¬Loud steps :=
  fun hloud => h.1 (fault_mem_of_unseen hloud)

/-- What comes of a procedure that has logged nothing. -/
theorem result_of_quiet {steps : List Step} {failed made : Prop}
    (h : Loud steps ∧ failed ∨ ¬Loud steps ∧ made) (hquiet : Quiet steps) : made := by
  rcases h with ⟨hloud, _⟩ | ⟨_, hmade⟩
  · exact absurd hloud (not_loud_of_quiet hquiet)
  · exact hmade

theorem result_of_loud {steps : List Step} {failed made : Prop}
    (h : Loud steps ∧ failed ∨ ¬Loud steps ∧ made) (hloud : Loud steps) : failed := by
  rcases h with ⟨_, hfailed⟩ | ⟨hnot, _⟩
  · exact hfailed
  · exact absurd hloud hnot

/-- What has happened before a procedure is entered is not seen in it. -/
theorem loud_cons_enter {steps : List Step} : Loud (.enter :: steps) ↔ Loud steps := Iff.rfl

theorem quiet_append {steps rest : List Step} :
    Quiet (steps ++ rest) ↔ Quiet steps ∧ Quiet rest := by
  simp only [Quiet, List.mem_append, not_or]
  tauto

theorem quiet_cons_enter {steps : List Step} : Quiet (.enter :: steps) ↔ Quiet steps := by
  simp [Quiet]

theorem quiet_nil : Quiet [] := by simp [Quiet]

theorem not_quiet_fault (steps : List Step) : ¬Quiet (.fault :: steps) := by simp [Quiet]

theorem quiet_of_mem_flatMap {α : Type} {f : α → List Step} {l : List α} {a : α} (ha : a ∈ l)
    (h : Quiet (l.flatMap f)) : Quiet (f a) :=
  ⟨fun hfault => h.1 (List.mem_flatMap_of_mem ha hfault),
    fun hlost => h.2 (List.mem_flatMap_of_mem ha hlost)⟩

/-- The lengths of the log and of what is logged elsewhere, and where the mark stands. -/
structure Tally where
  length : ℕ
  mark : ℕ
  elsewhere : ℕ

/-- The log reaches past the mark. -/
def Tally.new (l : Tally) : Bool := decide (l.mark < l.length)

/-- What the steps do to a log. -/
structure Tracks (steps : List Step) (l l' : Tally) : Prop where
  ordered : l'.mark ≤ l'.length
  new : l'.new = unseen l.new steps
  grows : l.length ≤ l'.length
  fault : l'.length = l.length ↔ .fault ∉ steps
  growsElsewhere : l.elsewhere ≤ l'.elsewhere
  lost : l'.elsewhere = l.elsewhere ↔ .lost ∉ steps

namespace Tracks

theorem nil {l : Tally} (h : l.mark ≤ l.length) : Tracks [] l l :=
  ⟨h, rfl, Nat.le_refl _, by simp, Nat.le_refl _, by simp⟩

theorem append {steps rest : List Step} {l l' l'' : Tally} (h : Tracks steps l l')
    (h' : Tracks rest l' l'') : Tracks (steps ++ rest) l l'' := by
  have h₁ := h.grows
  have h₂ := h'.grows
  have h₃ := h.growsElsewhere
  have h₄ := h'.growsElsewhere
  refine ⟨h'.ordered, ?_, Nat.le_trans h₁ h₂, ?_, Nat.le_trans h₃ h₄, ?_⟩
  · rw [unseen_append, ← h.new, h'.new]
  · rw [List.mem_append, not_or, ← h.fault, ← h'.fault]
    omega
  · rw [List.mem_append, not_or, ← h.lost, ← h'.lost]
    omega

/-- Wherever the mark has been, it is at the end when a procedure is entered. -/
theorem enter {l : Tally} {steps : List Step} {l' : Tally}
    (h : Tracks steps { l with mark := l.length } l') : Tracks (.enter :: steps) l l' := by
  have hnew : Tally.new { l with mark := l.length } = false := by simp [Tally.new]
  have hstart := h.new
  rw [hnew] at hstart
  exact ⟨h.ordered, hstart, h.grows, by simpa using h.fault, h.growsElsewhere,
    by simpa using h.lost⟩

theorem log {l : Tally} (h : l.mark ≤ l.length) :
    Tracks [.fault] l { l with length := l.length + 1 } := by
  refine ⟨Nat.le_succ_of_le h, ?_, Nat.le_succ _, by simp, Nat.le_refl _, by simp⟩
  simpa [Tally.new, unseen] using Nat.lt_succ_of_le h

/-- One more entry changes nothing when the log reaches past its mark already. -/
theorem more {steps : List Step} {l l' : Tally} (h : Tracks steps l l') (hnew : l'.new = true)
    (hfault : .fault ∈ steps) : Tracks steps l { l' with length := l'.length + 1 } := by
  have hlt : l'.mark < l'.length := of_decide_eq_true hnew
  have hgrows := h.grows
  refine ⟨Nat.le_succ_of_le h.ordered, ?_, Nat.le_succ_of_le hgrows, ?_, h.growsElsewhere, h.lost⟩
  · rw [← h.new, hnew]
    simpa [Tally.new] using Nat.lt_succ_of_lt hlt
  · exact iff_of_false (by simp only; omega) fun hnot => hnot hfault

/-- A procedure with a log of its own. -/
theorem own {steps : List Step} {l l' : Tally} (hordered : l.mark ≤ l.length)
    (h : Tracks steps ⟨0, 0, l.elsewhere⟩ l') :
    Tracks (apart steps) l { l with elsewhere := l'.elsewhere + l'.length } := by
  have hfault := h.fault
  have hlost := h.lost
  have hgrows := h.growsElsewhere
  have hsame : l'.elsewhere + l'.length = l.elsewhere ↔ Quiet steps := by
    rw [Quiet, ← hfault, ← hlost]
    simp only at hgrows ⊢
    omega
  refine ⟨hordered, ?_, Nat.le_refl _, ?_, ?_, ?_⟩
  · rw [apart]
    split <;> rfl
  · rw [apart]
    split <;> simp
  · exact Nat.le_trans hgrows (Nat.le_add_right _ _)
  · rw [hsame, apart]
    split
    · next hquiet => exact iff_of_true hquiet (by simp)
    · next hquiet => exact iff_of_false hquiet (by simp)

end Tracks

end Esnacc.MarkedLog
