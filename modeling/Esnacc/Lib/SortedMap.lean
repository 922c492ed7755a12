import Mathlib

/-!
Maps as lists of entries, sorted by the rank of their keys: what an ordered container
holds. An entry is put in its place, or replaces the value of the one with its rank.
-/

namespace SortedMap

variable {κ ρ α : Type} [LinearOrder ρ] (rank : κ → ρ)

/-- Puts an entry in. A key of the same rank stays. -/
def insert (key : κ) (value : α) : List (κ × α) → List (κ × α)
  | [] => [(key, value)]
  | entry :: entries =>
      if rank key < rank entry.1 then (key, value) :: entry :: entries
      else if rank key = rank entry.1 then (entry.1, value) :: entries
      else entry :: insert key value entries

def find (key : κ) : List (κ × α) → Option α
  | [] => none
  | entry :: entries => if rank key = rank entry.1 then some entry.2 else find key entries

/-- No two entries have the same rank, and they come in its order. -/
def Sorted (entries : List (κ × α)) : Prop := entries.Pairwise fun e e' => rank e.1 < rank e'.1

variable {rank}

theorem insert_perm {key : κ} {value : α} {entries : List (κ × α)}
    (h : ∀ e ∈ entries, rank key ≠ rank e.1) :
    (insert rank key value entries).Perm ((key, value) :: entries) := by
  induction entries with
  | nil => exact .refl _
  | cons entry entries ih =>
      rw [List.forall_mem_cons] at h
      rw [insert]
      split
      · exact .refl _
      · rw [if_neg h.1]
        exact ((ih h.2).cons entry).trans (.swap _ _ _)

/-- A key behind all others goes to the end. -/
theorem insert_of_lt {key : κ} {value : α} {entries : List (κ × α)}
    (h : ∀ e ∈ entries, rank e.1 < rank key) :
    insert rank key value entries = entries ++ [(key, value)] := by
  induction entries with
  | nil => rfl
  | cons entry entries ih =>
      rw [List.forall_mem_cons] at h
      rw [insert, if_neg h.1.not_gt, if_neg h.1.ne', ih h.2, List.cons_append]

/-- What is in the map afterwards has the rank of the key or of an entry. -/
theorem rank_of_mem_insert {key : κ} {value : α} {entries : List (κ × α)} {e : κ × α}
    (he : e ∈ insert rank key value entries) :
    rank e.1 = rank key ∨ ∃ e' ∈ entries, rank e.1 = rank e'.1 := by
  induction entries with
  | nil => exact .inl (by rw [List.mem_singleton.mp he])
  | cons entry entries ih =>
      rw [insert] at he
      split at he
      · rcases List.mem_cons.mp he with rfl | he
        · exact .inl rfl
        · exact .inr ⟨e, he, rfl⟩
      · split at he
        · rcases List.mem_cons.mp he with rfl | he
          · exact .inr ⟨entry, List.mem_cons_self, rfl⟩
          · exact .inr ⟨e, List.mem_cons_of_mem _ he, rfl⟩
        · rcases List.mem_cons.mp he with rfl | he
          · exact .inr ⟨e, List.mem_cons_self, rfl⟩
          · rcases ih he with hkey | ⟨e', he', hrank⟩
            · exact .inl hkey
            · exact .inr ⟨e', List.mem_cons_of_mem _ he', hrank⟩

theorem Sorted.insert {key : κ} {value : α} {entries : List (κ × α)} (h : Sorted rank entries) :
    Sorted rank (insert rank key value entries) := by
  induction entries with
  | nil => exact List.pairwise_singleton _ _
  | cons entry entries ih =>
      obtain ⟨hfirst, hrest⟩ := List.pairwise_cons.mp h
      rw [SortedMap.insert]
      split
      · rename_i hlt
        refine List.pairwise_cons.mpr ⟨fun e he => ?_, h⟩
        rcases List.mem_cons.mp he with rfl | he
        · exact hlt
        · exact hlt.trans (hfirst e he)
      · rename_i hge
        split
        · exact List.pairwise_cons.mpr ⟨hfirst, hrest⟩
        · rename_i hne
          refine List.pairwise_cons.mpr ⟨fun e he => ?_, ih hrest⟩
          rcases rank_of_mem_insert he with hnew | hmem
          · rw [hnew]
            exact lt_of_le_of_ne (not_lt.mp hge) (Ne.symm hne)
          · obtain ⟨e', he', hrank⟩ := hmem
            rw [hrank]
            exact hfirst e' he'

/-- What is found after an entry has been put in. -/
theorem find_insert (key key' : κ) (value : α) (entries : List (κ × α)) :
    find rank key' (insert rank key value entries) =
      if rank key' = rank key then some value else find rank key' entries := by
  induction entries with
  | nil => rfl
  | cons entry entries ih =>
      rw [insert]
      split
      · rfl
      · split
        · next heq =>
            rw [find, find, heq]
            split <;> rfl
        · next hne =>
            rw [find, ih, find]
            split
            · next hfirst => rw [if_neg (fun h => hne (h.symm.trans hfirst))]
            · rfl

theorem find_of_mem {entries : List (κ × α)} (h : Sorted rank entries) {e : κ × α}
    (he : e ∈ entries) : find rank e.1 entries = some e.2 := by
  induction entries with
  | nil => cases he
  | cons entry entries ih =>
      obtain ⟨hfirst, hrest⟩ := List.pairwise_cons.mp h
      rw [find]
      rcases List.mem_cons.mp he with rfl | he
      · rw [if_pos rfl]
      · rw [if_neg (hfirst e he).ne', ih hrest he]

/-- Entries of different ranks that are put in one after another. -/
theorem foldl_insert {new entries : List (κ × α)} (hsorted : Sorted rank entries)
    (hnew : new.Pairwise fun e e' => rank e.1 ≠ rank e'.1)
    (hfresh : ∀ e ∈ new, ∀ e' ∈ entries, rank e.1 ≠ rank e'.1) :
    Sorted rank (new.foldl (fun m e => insert rank e.1 e.2 m) entries) ∧
      (new.foldl (fun m e => insert rank e.1 e.2 m) entries).Perm (new ++ entries) := by
  induction new generalizing entries with
  | nil => exact ⟨hsorted, .refl _⟩
  | cons e new ih =>
      obtain ⟨hfirst, hrest⟩ := List.pairwise_cons.mp hnew
      rw [List.forall_mem_cons] at hfresh
      have hperm := @insert_perm _ _ _ _ rank e.1 e.2 entries hfresh.1
      have hstep := @ih (insert rank e.1 e.2 entries) hsorted.insert hrest fun e' he' o ho => by
        rcases List.mem_cons.mp (hperm.mem_iff.mp ho) with rfl | ho
        · exact (hfirst e' he').symm
        · exact hfresh.2 e' he' o ho
      refine ⟨hstep.1, hstep.2.trans ?_⟩
      exact ((hperm.append_left new).trans List.perm_middle)

end SortedMap
