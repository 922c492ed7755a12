import Mathlib

/-!
A cursor in a sequence, and programs that read at it.

A cursor is a zipper: what lies in front of it, the nearest symbol first, and
what lies behind it. Unlike a stream, it can go back, so what a program does may
depend on symbols that were read long ago. The judgment `Reads` therefore names
both sides of the cursor.
-/

structure Cursor (β : Type) where
  past : List β
  rest : List β
  deriving DecidableEq, Repr

namespace Cursor

variable {β ε α γ : Type}

/-- The whole sequence. -/
def all (c : Cursor β) : List β := c.past.reverse ++ c.rest

/-- The cursor at an absolute position. -/
def seek (c : Cursor β) (pos : ℕ) : Cursor β := ⟨(c.all.take pos).reverse, c.all.drop pos⟩

def advance (c : Cursor β) (n : ℕ) : Cursor β :=
  ⟨(c.rest.take n).reverse ++ c.past, c.rest.drop n⟩

def goBack (c : Cursor β) (n : ℕ) : Cursor β :=
  ⟨c.past.drop n, (c.past.take n).reverse ++ c.rest⟩

@[simp] theorem length_all (c : Cursor β) : c.all.length = c.past.length + c.rest.length := by
  simp [all]

theorem advance_append {xs : List β} {n : ℕ} (h : xs.length = n) (past rest : List β) :
    (⟨past, xs ++ rest⟩ : Cursor β).advance n = ⟨xs.reverse ++ past, rest⟩ := by
  subst h
  simp [advance]

theorem goBack_append {xs : List β} {n : ℕ} (h : xs.length = n) (past rest : List β) :
    (⟨xs.reverse ++ past, rest⟩ : Cursor β).goBack n = ⟨past, xs ++ rest⟩ := by
  subst h
  simp [goBack]

/-- A position that has been passed is found again. -/
theorem seek_append (xs past rest : List β) :
    (⟨xs.reverse ++ past, rest⟩ : Cursor β).seek past.length = ⟨past, xs ++ rest⟩ := by
  simp [seek, all]

/-- At `past`, with `xs` and then `rest` ahead, the program returns `a` and
stands behind `xs`. -/
def Reads (past rest : List β) (m : StateT (Cursor β) (Except ε) α) (xs : List β) (a : α) : Prop :=
  m.run ⟨past, xs ++ rest⟩ = .ok (a, ⟨xs.reverse ++ past, rest⟩)

/-- At `past`, with `ahead` to come, the program does not return. -/
def Fails (past ahead : List β) (m : StateT (Cursor β) (Except ε) α) : Prop :=
  ∃ e, m.run ⟨past, ahead⟩ = .error e

section Rules

variable {past rest xs ys : List β} {m : StateT (Cursor β) (Except ε) α} {a : α}
  {f : α → StateT (Cursor β) (Except ε) γ} {c : γ}

theorem Reads.pure (past rest : List β) (a : α) :
    Reads past rest (Pure.pure a : StateT (Cursor β) (Except ε) α) [] a := rfl

/-- Runs the first call of a program whose reading is known. -/
theorem Reads.run_bind (hm : Reads past rest m xs a) :
    (m >>= f).run ⟨past, xs ++ rest⟩ = (f a).run ⟨xs.reverse ++ past, rest⟩ := by
  rw [StateT.run_bind, show m.run ⟨past, xs ++ rest⟩ = _ from hm]
  rfl

theorem Reads.bind (hm : Reads past (ys ++ rest) m xs a)
    (hf : Reads (xs.reverse ++ past) rest (f a) ys c) :
    Reads past rest (m >>= f) (xs ++ ys) c := by
  rw [Reads, List.append_assoc, hm.run_bind, List.reverse_append, List.append_assoc]
  exact hf

theorem Reads.bind_pure (hm : Reads past rest m xs a) (g : α → γ) :
    Reads past rest (m >>= fun a => Pure.pure (g a)) xs (g a) := by
  rw [Reads, hm.run_bind]
  rfl

theorem Reads.bind_fails (hm : Reads past ys m xs a) (hf : Fails (xs.reverse ++ past) ys (f a)) :
    Fails past (xs ++ ys) (m >>= f) := by
  obtain ⟨e, he⟩ := hf
  exact ⟨e, hm.run_bind.trans he⟩

theorem Fails.bind (hm : Fails past xs m) : Fails past xs (m >>= f) := by
  obtain ⟨e, he⟩ := hm
  refine ⟨e, ?_⟩
  rw [StateT.run_bind, he]
  rfl

theorem Fails.not_ok {s : Cursor β} (hm : Fails past xs m) : m.run ⟨past, xs⟩ ≠ .ok (a, s) := by
  obtain ⟨e, he⟩ := hm
  rw [he]
  exact fun h => nomatch h

theorem Fails.not_reads {zs : List β} (hm : Fails past (zs ++ rest) m) : ¬ Reads past rest m zs a :=
  fun h => hm.not_ok h

end Rules

end Cursor
