import Esnacc.Lib.Cursor

/-!
Editing a sequence at a cursor. The cursor stands on the first element of what lies behind it, or
off the sequence when nothing does.
-/

namespace Cursor

variable {β γ : Type}

/-- Nothing, and the cursor off it. -/
def empty : Cursor β := ⟨[], []⟩

/-- The cursor off the sequence. -/
def off (xs : List β) : Cursor β := ⟨xs.reverse, []⟩

/-- The cursor on the first element. -/
def front (xs : List β) : Cursor β := ⟨[], xs⟩

/-- The cursor on the last element. -/
def back (xs : List β) : Cursor β :=
  match xs.reverse with
  | [] => empty
  | x :: past => ⟨past, [x]⟩

/-- Takes the element out, and stands on the one behind it. -/
def remove (c : Cursor β) : Cursor β := ⟨c.past, c.rest.tail⟩

/-- A new element behind the one the cursor stands on. -/
def addAfter (x : β) (c : Cursor β) : Cursor β :=
  match c.rest with
  | [] => c
  | y :: rest => ⟨y :: c.past, x :: rest⟩

/-- A new element before the one the cursor stands on. -/
def insertBefore (x : β) (c : Cursor β) : Cursor β :=
  match c.rest with
  | [] => c
  | y :: rest => ⟨c.past, x :: y :: rest⟩

/-- From off the sequence to its last element. -/
def goPrev (c : Cursor β) : Cursor β :=
  match c.rest, c.past with
  | [], _ => back c.all
  | rest, y :: past => ⟨past, y :: rest⟩
  | _, [] => off c.all

/-- From off the sequence to its first element. -/
def goNext (c : Cursor β) : Cursor β :=
  match c.rest with
  | [] => front c.all
  | y :: rest => ⟨y :: c.past, rest⟩

/-- A second sequence behind the first one. Only in an empty one does the cursor move. -/
def concat (c : Cursor β) (ys : List β) : Cursor β :=
  if ys = [] then c
  else if c.all = [] then front ys
  else if c.rest = [] then off (c.all ++ ys)
  else ⟨c.past, c.rest ++ ys⟩

def map (f : β → γ) (c : Cursor β) : Cursor γ := ⟨c.past.map f, c.rest.map f⟩

/-! ### Contents -/

@[simp] theorem all_empty : (empty : Cursor β).all = [] := rfl

@[simp] theorem all_off (xs : List β) : (off xs).all = xs := by simp [off, all]

@[simp] theorem all_front (xs : List β) : (front xs).all = xs := rfl

@[simp] theorem all_back (xs : List β) : (back xs).all = xs := by
  rw [back]
  split
  · next h => exact (List.reverse_eq_nil_iff.mp h).symm
  · next x past h =>
      rw [← List.reverse_reverse xs, h]
      simp [all]

theorem all_goPrev (c : Cursor β) : c.goPrev.all = c.all := by
  obtain ⟨past, rest⟩ := c
  cases rest with
  | nil => exact all_back _
  | cons y rest =>
      cases past with
      | nil => exact all_off _
      | cons z past => simp [goPrev, all]

theorem all_goNext (c : Cursor β) : c.goNext.all = c.all := by
  rw [goNext]
  split
  · rfl
  · next h => simp [all, h]

theorem all_concat (c : Cursor β) (ys : List β) : (c.concat ys).all = c.all ++ ys := by
  unfold concat
  split
  · next h => simp [h]
  split
  · next h => simp [h]
  split
  · exact all_off _
  · simp [all]

/-! ### Elements that carry something else along -/

section Map

variable (f : β → γ) (c : Cursor β) (x : β) (xs : List β)

@[simp] theorem all_map : (c.map f).all = c.all.map f := by simp [all, map]

@[simp] theorem map_empty : (empty : Cursor β).map f = empty := rfl

@[simp] theorem map_off : (off xs).map f = off (xs.map f) := by simp [off, map]

@[simp] theorem map_front : (front xs).map f = front (xs.map f) := rfl

@[simp] theorem map_back : (back xs).map f = back (xs.map f) := by
  rw [back, back, ← List.map_reverse]
  cases xs.reverse <;> rfl

@[simp] theorem map_remove : c.remove.map f = (c.map f).remove := by simp [remove, map]

@[simp] theorem map_addAfter : (c.addAfter x).map f = (c.map f).addAfter (f x) := by
  obtain ⟨past, rest⟩ := c
  cases rest <;> rfl

@[simp] theorem map_insertBefore : (c.insertBefore x).map f = (c.map f).insertBefore (f x) := by
  obtain ⟨past, rest⟩ := c
  cases rest <;> rfl

@[simp] theorem map_goPrev : c.goPrev.map f = (c.map f).goPrev := by
  obtain ⟨past, rest⟩ := c
  cases rest with
  | nil =>
      have hback := map_back f (Cursor.all ⟨past, []⟩)
      rwa [← all_map] at hback
  | cons y rest =>
      cases past with
      | nil => simp [goPrev, map, all, off]
      | cons z past => rfl

@[simp] theorem map_goNext : c.goNext.map f = (c.map f).goNext := by
  obtain ⟨past, rest⟩ := c
  cases rest with
  | nil => simp [goNext, map, all, front]
  | cons y rest => rfl

@[simp] theorem map_concat : (c.concat xs).map f = (c.map f).concat (xs.map f) := by
  have hrest : (c.map f).rest = [] ↔ c.rest = [] := List.map_eq_nil_iff
  unfold concat
  by_cases hxs : xs = []
  · simp [hxs]
  by_cases hall : c.all = []
  · simp [hxs, hall]
  by_cases hoff : c.rest = []
  · simp [hxs, hall, hrest, hoff]
  · simp [hxs, hall, hrest, hoff]
    simp [map]

end Map

end Cursor
