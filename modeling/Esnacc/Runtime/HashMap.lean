import Esnacc.Runtime.Hash

/-!
A hash table as a map from hash values. `Insert` and `CheckForAndReturnValue` walk the tree of
tables alike. `CheckFor` does not: it takes the index for a number of tables, and reads what stands
at the beginning of the table or behind it as if it were a slot.
-/

namespace Esnacc

section Recursion

variable {α : Type}

/-- `Insert` and `SplitAndInsert`, with no result where the recursion gets deeper than `depth`. -/
def insertWithin : ℕ → Table α → α → Hash → Option (Bool × Table α)
  | 0, _, _, _ => none
  | depth + 1, table, element, hashValue =>
      match table (lowOctet hashValue) with
      | .null => some (true, Function.update table (lowOctet hashValue) (.leaf hashValue element))
      | .leaf hash value =>
          if hashValue = hash then some (false, table)
          else do
            let first ← insertWithin depth newTable value (shifted hash)
            if first.1 then do
              let second ← insertWithin depth first.2 element (shifted hashValue)
              if second.1 then
                some (true, Function.update table (lowOctet hashValue) (.node hash second.2))
              else some (false, table)
            else some (false, table)
      | .node hash sub =>
          if hashValue = hash then some (false, table)
          else do
            let r ← insertWithin depth sub element (shifted hashValue)
            some (r.1, Function.update table (lowOctet hashValue) (.node hash r.2))

/-- A good table has as many levels as the recursion needs. -/
theorem insertWithin_eq {k : ℕ} (hk : 1 ≤ k) {table : Table α} (element : α) {hash : Hash}
    (htable : table.Good k) (hhash : hash.toNat < 256 ^ k) :
    insertWithin k table element hash = some (insert k table element hash) := by
  induction k generalizing table element hash with
  | zero => omega
  | succ k ih =>
      have hslot := htable (lowOctet hash)
      cases hentry : table (lowOctet hash) with
      | null => simp only [insertWithin, insert, hentry]
      | leaf other value =>
          rw [hentry] at hslot
          by_cases heq : hash = other
          · simp only [insertWithin, insert, hentry, if_pos heq]
          · obtain ⟨hpos, hother, hshifted, hdiff⟩ := deeper hslot.1 hslot.2 hhash heq
            have first := insert_inserted k hpos newTable value (shifted other)
              (good_newTable k) hother
            have second := insert_inserted k hpos _ element (shifted hash) first.good hshifted
            obtain ⟨hfirst, hsecond, -⟩ := first.pair second hdiff
            simp only [insertWithin, insert, hentry, if_neg heq, splitAndInsert,
              ih hpos value (good_newTable k) hother, ih hpos element first.good hshifted,
              Option.bind_eq_bind, Option.bind_some, hfirst, hsecond, if_true, and_self]
      | node other sub =>
          rw [hentry] at hslot
          by_cases heq : hash = other
          · simp only [insertWithin, insert, hentry, if_pos heq]
          · obtain ⟨hpos, -, hshifted, -⟩ := deeper hslot.1 hslot.2.1 hhash heq
            simp only [insertWithin, insert, hentry, if_neg heq,
              ih hpos element hslot.2.2.1 hshifted, Option.bind_eq_bind, Option.bind_some]

end Recursion

section Map

variable {α : Type}

/-- The table after insertions in turn. -/
def insertAll (entries : List (Hash × α)) : Table α :=
  entries.foldl (fun table e => (insert levels table e.2 e.1).2) newTable

theorem insertAll_concat (entries : List (Hash × α)) (e : Hash × α) :
    insertAll (entries ++ [e]) = (insert levels (insertAll entries) e.2 e.1).2 :=
  List.foldl_concat ..

/-- A hash value finds what was inserted with it first. -/
theorem insertAll_spec (entries : List (Hash × α)) :
    (insertAll entries).Good levels ∧ ∀ h, checkForAndReturnValue (insertAll entries) h =
      (entries.find? fun e => e.1 = h).map Prod.snd := by
  induction entries using List.reverseRecOn with
  | nil => exact ⟨good_newTable levels, fun _ => rfl⟩
  | append_singleton entries e ih =>
      obtain ⟨hgood, hfind⟩ := ih
      have hinsert := insert_spec hgood e.2 e.1
      rw [insertAll_concat]
      refine ⟨hinsert.good, fun h => ?_⟩
      rw [hinsert.find, List.find?_append, Option.map_or, hfind, hfind]
      by_cases heq : h = e.1
      · simp [heq]
      · simp [heq, Ne.symm heq]

/-- With different hash values every insertion succeeds. -/
theorem insert_succeeds {entries : List (Hash × α)} {hash : Hash}
    (hnew : ∀ e ∈ entries, e.1 ≠ hash) (element : α) :
    (insert levels (insertAll entries) element hash).1 = true := by
  obtain ⟨hgood, hfind⟩ := insertAll_spec entries
  rw [(insert_spec hgood element hash).answer, hfind, Option.isNone_map, List.find?_eq_none.mpr]
  · rfl
  · simpa using hnew

end Map

/-! ### CheckFor -/

section CheckFor

variable {α : Type}

/-- What a `Table*` of `CheckFor` points to. -/
inductive TablePtr (α : Type)
  | null
  | table (t : Table α)
  | slot (s : HashSlot α)

/-- A slot pointer that is taken for a `Table*`. -/
def HashSlot.asTable : HashSlot α → TablePtr α
  | .null => .null
  | s => .slot s

/-- The bits of a slot pointer, by the addresses of the slots. -/
def HashSlot.bits (address : HashSlot α → BitVec 64) : HashSlot α → BitVec 64
  | .null => 0
  | s => address s

/-- `CheckFor`, with no result where it reads outside of what is pointed to. The entry is
`table[hash & INDEXMASK]`, a whole table: for the index 0 the one that `table` points to, for others
one that is not there. The first octets of a table, read as a slot, are the halves of its first
pointer for `leaf` and `hash`, and its third pointer for `table`. -/
def checkFor (address : HashSlot α → BitVec 64) : ℕ → TablePtr α → Hash → Option Bool
  | 0, _, _ => none
  | fuel + 1, table, hash =>
      if lowOctet hash ≠ 0 then none
      else
        match table with
        | .null => some false
        | .slot .null => none
        | .slot (.leaf entryHash _) => some (entryHash == hash)
        | .slot (.node _ sub) => checkFor address fuel (.table sub) (shifted hash)
        | .table t =>
            let pointer := (t 0).bits address
            if pointer.setWidth 32 ≠ 0 then some ((pointer >>> 32).setWidth 32 == hash)
            else checkFor address fuel (t 2).asTable (shifted hash)

theorem checkFor_outside (address : HashSlot α → BitVec 64) (fuel : ℕ) (table : TablePtr α)
    {hash : Hash} (h : lowOctet hash ≠ 0) : checkFor address fuel table hash = none := by
  cases fuel with
  | zero => rfl
  | succ fuel => exact if_pos h

/-- `CheckFor` returns, and what it returns is whether `CheckForAndReturnValue` finds an entry. -/
def CheckForAgrees (address : HashSlot α → BitVec 64) (table : Table α) : Prop :=
  ∀ hash, ∃ fuel, checkFor address fuel (.table table) hash =
    some (checkForAndReturnValue table hash).isSome

/-- `CheckForAndReturnValue` finds exactly the value that was inserted with a hash value, every
insertion succeeds within four levels of recursion, and `CheckFor` never agrees: for every hash
value whose lowest octet is not zero it reads outside of the table. -/
theorem hashTable_isMap (α : Type) (address : HashSlot α → BitVec 64)
    (entries : List (Hash × α)) (hdistinct : (entries.map Prod.fst).Nodup) :
    (∀ h v, checkForAndReturnValue (insertAll entries) h = some v ↔ (h, v) ∈ entries) ∧
      (∀ element hash, insertWithin levels (insertAll entries) element hash =
        some (insert levels (insertAll entries) element hash)) ∧
      (∀ element hash, hash ∉ entries.map Prod.fst →
        (insert levels (insertAll entries) element hash).1 = true) ∧
      (∀ fuel hash, lowOctet hash ≠ 0 →
        checkFor address fuel (.table (insertAll entries)) hash = none) ∧
      ¬ CheckForAgrees address (insertAll entries) := by
  obtain ⟨hgood, hfind⟩ := insertAll_spec entries
  refine ⟨fun h v => ?_, fun element hash => ?_, fun element hash hnew => ?_,
    fun fuel hash hlow => checkFor_outside address fuel _ hlow, fun hagrees => ?_⟩
  · rw [hfind, Option.map_eq_some_iff]
    constructor
    · rintro ⟨e, he, rfl⟩
      have hkey : e.1 = h := by simpa using List.find?_some he
      rw [← hkey]
      exact List.mem_of_find?_eq_some he
    · intro hmem
      have hsome : (entries.find? fun e => e.1 = h).isSome :=
        List.find?_isSome.mpr ⟨(h, v), hmem, decide_eq_true rfl⟩
      obtain ⟨e, he⟩ := Option.isSome_iff_exists.mp hsome
      have hkey : e.1 = h := by simpa using List.find?_some he
      have heq : e = (h, v) :=
        List.inj_on_of_nodup_map hdistinct (List.mem_of_find?_eq_some he) hmem hkey
      exact ⟨e, he, by rw [heq]⟩
  · exact insertWithin_eq (by decide) element hgood hash.isLt
  · refine insert_succeeds (fun e he heq => hnew ?_) element
    rw [← heq]
    exact List.mem_map_of_mem he
  · obtain ⟨fuel, hfuel⟩ := hagrees 1
    rw [checkFor_outside address fuel _ (by decide)] at hfuel
    cases hfuel

theorem hashTable_isMap_at :
    checkForAndReturnValue (insertAll [(0x0101, 'a'), (0x0201, 'b')]) 0x0201 = some 'b' :=
  ((hashTable_isMap Char (fun _ => 16) _ (by decide)).1 _ _).mpr (by decide)

/-- One entry is inserted and found, and `CheckFor` reads outside of the table. -/
theorem checkFor_disagrees : ¬ ∀ (address : HashSlot Char → BitVec 64)
    (entries : List (Hash × Char)), (entries.map Prod.fst).Nodup →
      CheckForAgrees address (insertAll entries) := by
  intro h
  obtain ⟨fuel, hfuel⟩ := h (fun _ => 16) [(1, 'a')] (by decide) 1
  rw [checkFor_outside _ fuel _ (by decide)] at hfuel
  cases hfuel

end CheckFor

end Esnacc
