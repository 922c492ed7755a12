import Mathlib

/-!
Cutting frames out of a stream. What stands at the front of a buffer is a frame, or a symbol
that is skipped, or not decided before more has arrived. Such a decision is kept when more
symbols arrive, so that a stream has one reading, however it is cut into chunks.
-/

/-- What stands at the front of a buffer; a frame comes with the number of its symbols. -/
inductive Framer.Front (γ : Type)
  | wait
  | frame (f : γ) (size : ℕ)
  | skip
  deriving DecidableEq, Repr

structure Framer (β γ : Type) where
  front : List β → Framer.Front γ
  front_nil : front [] = .wait
  size_pos : ∀ {b f n}, front b = .frame f n → 0 < n
  size_le : ∀ {b f n}, front b = .frame f n → n ≤ b.length
  frame_append : ∀ {b f n}, front b = .frame f n → ∀ t, front (b ++ t) = .frame f n
  skip_append : ∀ {b}, front b = .skip → ∀ t, front (b ++ t) = .skip

namespace Framer

variable {β γ : Type} (F : Framer β γ)

theorem ne_nil_of_skip {b : List β} (h : F.front b = .skip) : b ≠ [] := by
  rintro rfl
  rw [F.front_nil] at h
  cases h

/-- The frames of a stream, and what is left undecided at its end. -/
def reading (b : List β) : List γ × List β :=
  match _h : F.front b with
  | .wait => ([], b)
  | .frame f n => (f :: (reading (b.drop n)).1, (reading (b.drop n)).2)
  | .skip => reading b.tail
termination_by b.length
decreasing_by
  · have hpos := F.size_pos _h
    have hle := F.size_le _h
    simp only [List.length_drop]
    omega
  · have hpos := List.length_pos_of_ne_nil (F.ne_nil_of_skip _h)
    simp only [List.length_tail]
    omega

def frames (b : List β) : List γ := (F.reading b).1

def residual (b : List β) : List β := (F.reading b).2

variable {F} {b : List β}

theorem reading_of_wait (h : F.front b = .wait) : F.reading b = ([], b) := by
  rw [reading]
  split <;> simp_all

theorem reading_of_frame {f : γ} {n : ℕ} (h : F.front b = .frame f n) :
    F.reading b = (f :: F.frames (b.drop n), F.residual (b.drop n)) := by
  rw [reading]
  split
  · simp_all
  · next f' n' h' =>
      rw [h] at h'
      cases h'
      rfl
  · simp_all

theorem reading_of_skip (h : F.front b = .skip) : F.reading b = F.reading b.tail := by
  rw [reading]
  split <;> simp_all

theorem frames_of_wait (h : F.front b = .wait) : F.frames b = [] := by
  rw [frames, reading_of_wait h]

theorem frames_of_frame {f : γ} {n : ℕ} (h : F.front b = .frame f n) :
    F.frames b = f :: F.frames (b.drop n) := by
  rw [frames, reading_of_frame h]

theorem frames_of_skip (h : F.front b = .skip) : F.frames b = F.frames b.tail := by
  rw [frames, reading_of_skip h, frames]

theorem residual_of_wait (h : F.front b = .wait) : F.residual b = b := by
  rw [residual, reading_of_wait h]

theorem residual_of_frame {f : γ} {n : ℕ} (h : F.front b = .frame f n) :
    F.residual b = F.residual (b.drop n) := by
  rw [residual, reading_of_frame h]

theorem residual_of_skip (h : F.front b = .skip) : F.residual b = F.residual b.tail := by
  rw [residual, reading_of_skip h, residual]

@[simp] theorem frames_nil : F.frames [] = [] := frames_of_wait F.front_nil

@[simp] theorem residual_nil : F.residual [] = [] := residual_of_wait F.front_nil

/-- Induction along the reading of a stream. -/
theorem reading_induction {P : List β → Prop} (b : List β)
    (wait : ∀ b, F.front b = .wait → P b)
    (frame : ∀ b f n, F.front b = .frame f n → P (b.drop n) → P b)
    (skip : ∀ b, F.front b = .skip → P b.tail → P b) : P b := by
  generalize hk : b.length = k
  induction k using Nat.strong_induction_on generalizing b with
  | _ k ih =>
      cases h : F.front b with
      | wait => exact wait b h
      | frame f n =>
          have hpos := F.size_pos h
          have hle := F.size_le h
          refine frame b f n h (ih (b.drop n).length ?_ _ rfl)
          simp only [List.length_drop]
          omega
      | skip =>
          have hpos := List.length_pos_of_ne_nil (F.ne_nil_of_skip h)
          refine skip b h (ih b.tail.length ?_ _ rfl)
          simp only [List.length_tail]
          omega

/-- What is read so far is not read again: only what is left undecided matters for what
follows. -/
theorem frames_append (b t : List β) :
    F.frames (b ++ t) = F.frames b ++ F.frames (F.residual b ++ t) := by
  induction b using reading_induction (F := F) with
  | wait b h => rw [frames_of_wait h, residual_of_wait h, List.nil_append]
  | frame b f n h ih =>
      rw [frames_of_frame (F.frame_append h t), List.drop_append_of_le_length (F.size_le h), ih,
        frames_of_frame h, residual_of_frame h, List.cons_append]
  | skip b h ih =>
      rw [frames_of_skip (F.skip_append h t), List.tail_append_of_ne_nil (F.ne_nil_of_skip h), ih,
        frames_of_skip h, residual_of_skip h]

theorem residual_append (b t : List β) :
    F.residual (b ++ t) = F.residual (F.residual b ++ t) := by
  induction b using reading_induction (F := F) with
  | wait b h => rw [residual_of_wait h]
  | frame b f n h ih =>
      rw [residual_of_frame (F.frame_append h t), List.drop_append_of_le_length (F.size_le h), ih,
        residual_of_frame h]
  | skip b h ih =>
      rw [residual_of_skip (F.skip_append h t), List.tail_append_of_ne_nil (F.ne_nil_of_skip h), ih,
        residual_of_skip h]

theorem front_residual (b : List β) : F.front (F.residual b) = .wait := by
  induction b using reading_induction (F := F) with
  | wait b h => rw [residual_of_wait h, h]
  | frame b f n h ih => rw [residual_of_frame h, ih]
  | skip b h ih => rw [residual_of_skip h, ih]

/-- A frame at the front of a stream is the first that is read. -/
theorem frames_cons {wire t : List β} {f : γ} (h : F.front wire = .frame f wire.length) :
    F.frames (wire ++ t) = f :: F.frames t := by
  rw [frames_of_frame (F.frame_append h t), List.drop_left]

theorem residual_cons {wire t : List β} {f : γ} (h : F.front wire = .frame f wire.length) :
    F.residual (wire ++ t) = F.residual t := by
  rw [residual_of_frame (F.frame_append h t), List.drop_left]

end Framer
