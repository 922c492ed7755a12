import Mathlib.Logic.Function.Basic
import Mathlib.Data.List.Basic

/-!
Maps as lists of entries, the oldest first. An entry that is set again stays in its place. Of
two maps that name each other, one for the names and one for what they stand for, each is the
inverse of the other as long as no name is given twice.
-/

namespace EntryMap

section Maps

variable {κ α : Type} [DecidableEq κ]

def get (m : List (κ × α)) (key : κ) : Option α := (m.find? fun e => e.1 = key).map Prod.snd

def set (m : List (κ × α)) (key : κ) (value : α) : List (κ × α) :=
  match m with
  | [] => [(key, value)]
  | e :: m => if e.1 = key then (key, value) :: m else e :: set m key value

def delete (m : List (κ × α)) (key : κ) : List (κ × α) := m.filter fun e => e.1 ≠ key

def keys (m : List (κ × α)) : List κ := m.map Prod.fst

@[simp] theorem get_nil (key : κ) : get ([] : List (κ × α)) key = none := rfl

theorem get_cons (e : κ × α) (m : List (κ × α)) (key : κ) :
    get (e :: m) key = if e.1 = key then some e.2 else get m key := by
  by_cases h : e.1 = key <;> simp [get, h]

theorem get_set (m : List (κ × α)) (key : κ) (value : α) :
    get (set m key value) = Function.update (get m) key (some value) := by
  funext key'
  induction m with
  | nil => simp [set, get_cons, Function.update_apply, eq_comm]
  | cons e m ih =>
      rw [set]
      by_cases hkey : key' = key
      · subst hkey
        rw [Function.update_self] at ih ⊢
        split
        · rw [get_cons, if_pos rfl]
        · next hne => rw [get_cons, if_neg hne, ih]
      · rw [Function.update_of_ne hkey] at ih ⊢
        split
        · next heq => rw [get_cons, get_cons, if_neg (Ne.symm hkey), if_neg (heq ▸ Ne.symm hkey)]
        · rw [get_cons, get_cons, ih]

theorem delete_cons (e : κ × α) (m : List (κ × α)) (key : κ) :
    delete (e :: m) key = if e.1 = key then delete m key else e :: delete m key := by
  by_cases h : e.1 = key <;> simp [delete, h]

theorem get_delete (m : List (κ × α)) (key : κ) :
    get (delete m key) = Function.update (get m) key none := by
  funext key'
  induction m with
  | nil => simp [delete, Function.update_apply]
  | cons e m ih =>
      rw [delete_cons]
      by_cases hkey : key' = key
      · subst hkey
        rw [Function.update_self] at ih ⊢
        split
        · exact ih
        · next hne => rw [get_cons, if_neg hne, ih]
      · rw [Function.update_of_ne hkey] at ih ⊢
        split
        · next heq => rw [get_cons, if_neg (heq ▸ Ne.symm hkey), ih]
        · rw [get_cons, get_cons, ih]

theorem mem_keys_iff {m : List (κ × α)} {key : κ} : key ∈ keys m ↔ (get m key).isSome := by
  induction m with
  | nil => simp [keys]
  | cons e m ih =>
      rw [get_cons, keys, List.map_cons, List.mem_cons]
      split
      · next h => simp [h]
      · next h => simp only [Ne.symm h, false_or]; exact ih

end Maps

/-! ### Maps that name each other -/

section Inverse

variable {ι ν : Type}

/-- Looking up by name and by what the name stands for are inverse. -/
def Inverse (nameOf : ι → Option ν) (idOf : ν → Option ι) : Prop :=
  ∀ i n, nameOf i = some n ↔ idOf n = some i

variable {nameOf : ι → Option ν} {idOf : ν → Option ι}

theorem Inverse.empty : Inverse (fun _ : ι => (none : Option ν)) fun _ => none := by
  simp [Inverse]

variable [DecidableEq ι] [DecidableEq ν]

/-- A new name for something new. -/
theorem Inverse.add (h : Inverse nameOf idOf) {i : ι} {n : ν} (hi : nameOf i = none)
    (hn : ∀ j, nameOf j ≠ some n) :
    Inverse (Function.update nameOf i (some n)) (Function.update idOf n (some i)) := by
  intro j n'
  by_cases hj : j = i
  · subst hj
    by_cases hn' : n' = n
    · simp [hn']
    · rw [Function.update_self, Function.update_of_ne hn', ← h, hi]
      simpa using Ne.symm hn'
  · by_cases hn' : n' = n
    · subst hn'
      rw [Function.update_of_ne hj, Function.update_self]
      simpa [Ne.symm hj] using hn j
    · rw [Function.update_of_ne hj, Function.update_of_ne hn', h]

/-- A name that is taken is lost for what had it before. -/
theorem Inverse.not_add {i j : ι} {n : ν} (hj : nameOf j = some n) (hne : j ≠ i) :
    ¬ Inverse (Function.update nameOf i (some n)) (Function.update idOf n (some i)) := by
  intro h
  -- the name stands for `i` now
  have hlost := (h j n).mp (by rw [Function.update_of_ne hne, hj])
  rw [Function.update_self] at hlost
  exact hne (Option.some.inj hlost).symm

theorem Inverse.erase (h : Inverse nameOf idOf) {i : ι} {n : ν} (hi : nameOf i = some n) :
    Inverse (Function.update nameOf i none) (Function.update idOf n none) := by
  intro j n'
  by_cases hj : j = i
  · subst hj
    rw [Function.update_self]
    by_cases hn' : n' = n
    · simp [hn']
    · rw [Function.update_of_ne hn', ← h, hi]
      simpa using Ne.symm hn'
  · rw [Function.update_of_ne hj]
    by_cases hn' : n' = n
    · subst hn'
      rw [Function.update_self, h]
      have hmine := (h i n').mp hi
      simpa [hmine] using Ne.symm hj
    · rw [Function.update_of_ne hn', h]

end Inverse

end EntryMap
