import Esnacc.Lib.BitString

/-!
The extensible hash tables: a tree of tables of 256 slots, the slot of a hash
value at each level being given by its lowest octet. A slot that two hash values
fall into is split by a further table, which they enter without that octet.

Tables only grow, and a slot keeps its hash value when it is split.
-/

namespace Esnacc

open BitString

abbrev Hash := BitVec 32

/-- `MakeHash(str, len)`. The loop is unrolled in the source; `*str` is a signed
character. -/
def makeHash (str : List Octet) : Hash :=
  str.foldl (fun n c => c.signExtend 32 + 65587 * n) 0

/-- `hash & INDEXMASK`. -/
def lowOctet (hash : Hash) : Octet := hash.truncate 8

/-- `hash >> INDEXSHIFT`. -/
def shifted (hash : Hash) : Hash := hash >>> 8

/-- A pointer to a `HashSlot`, which may be null. -/
inductive HashSlot (α : Type)
  | null
  | leaf (hash : Hash) (value : α)
  | node (hash : Hash) (table : Octet → HashSlot α)

abbrev Table (α : Type) := Octet → HashSlot α

section Tables

variable {α : Type}

/-- `InitHash`, and `NewTable`. -/
def newTable : Table α := fun _ => .null

/-- `SplitAndInsert`, for a leaf. What it answers and the slot it leaves. -/
def splitAndInsert (insert : Table α → α → Hash → Bool × Table α) (hash : Hash) (value : α)
    (element : α) (hashValue : Hash) : Bool × HashSlot α :=
  let first := insert newTable value (shifted hash)
  let second := insert first.2 element (shifted hashValue)
  if first.1 ∧ second.1 then (true, .node hash second.2) else (false, .leaf hash value)

/-- `Insert`. The fuel bounds the number of levels. -/
def insert : ℕ → Table α → α → Hash → Bool × Table α
  | 0, table, _, _ => (false, table)
  | fuel + 1, table, element, hashValue =>
      match table (lowOctet hashValue) with
      | .null => (true, Function.update table (lowOctet hashValue) (.leaf hashValue element))
      | .leaf hash value =>
          if hashValue = hash then (false, table)
          else
            let r := splitAndInsert (insert fuel) hash value element hashValue
            (r.1, Function.update table (lowOctet hashValue) r.2)
      | .node hash sub =>
          if hashValue = hash then (false, table)
          else
            let r := insert fuel sub element (shifted hashValue)
            (r.1, Function.update table (lowOctet hashValue) (.node hash r.2))

/-- Four levels use up a hash value. -/
def levels : ℕ := 4

def HashSlot.find : HashSlot α → Hash → Option α
  | .null, _ => none
  | .leaf hash value, h => if hash = h then some value else none
  | .node _ table, h => (table (lowOctet (shifted h))).find (shifted h)

def checkForAndReturnValue (table : Table α) (hash : Hash) : Option α :=
  (table (lowOctet hash)).find hash

/-! ### A table is a map from hash values -/

theorem eq_of_shifted_eq {a b : Hash} (hlow : lowOctet a = lowOctet b)
    (hshifted : shifted a = shifted b) : a = b := by
  have hl := congrArg BitVec.toNat hlow
  have hs := congrArg BitVec.toNat hshifted
  simp only [lowOctet, shifted, BitVec.truncate_eq_setWidth, BitVec.toNat_setWidth,
    BitVec.toNat_ushiftRight, Nat.shiftRight_eq_div_pow] at hl hs
  exact BitVec.eq_of_toNat_eq (by omega)

theorem toNat_shifted (h : Hash) : (shifted h).toNat = h.toNat / 256 := by
  simp [shifted, BitVec.toNat_ushiftRight, Nat.shiftRight_eq_div_pow]

/-- With `k` levels to come, the slot holds hash values that belong there and that
`k` levels use up. -/
def HashSlot.Good : HashSlot α → ℕ → Octet → Prop
  | .null, _, _ => True
  | .leaf hash _, k, i => lowOctet hash = i ∧ hash.toNat < 256 ^ k
  | .node hash table, k, i =>
      lowOctet hash = i ∧ hash.toNat < 256 ^ k ∧ (∀ j, (table j).Good (k - 1) j) ∧
        ((HashSlot.node hash table).find hash).isSome

def Table.Good (table : Table α) (k : ℕ) : Prop := ∀ i, (table i).Good k i

theorem good_newTable (k : ℕ) : Table.Good (newTable : Table α) k := fun _ => trivial

/-- What `insert` has to do to a table. -/
structure Inserted (k : ℕ) (table : Table α) (element : α) (hash : Hash)
    (r : Bool × Table α) : Prop where
  good : Table.Good r.2 k
  find : ∀ q, checkForAndReturnValue r.2 q =
    if q = hash then (checkForAndReturnValue table hash).or (some element)
    else checkForAndReturnValue table q
  answer : r.1 = (checkForAndReturnValue table hash).isNone

/-- A slot is replaced: other hash values are looked up as before. -/
theorem Inserted.of_slot {k : ℕ} {table : Table α} {element : α} {hash : Hash} {answer : Bool}
    {slot : HashSlot α} (htable : table.Good k) (hgood : slot.Good k (lowOctet hash))
    (hfind : ∀ q, lowOctet q = lowOctet hash → slot.find q =
      if q = hash then (checkForAndReturnValue table hash).or (some element)
      else checkForAndReturnValue table q)
    (hanswer : answer = (checkForAndReturnValue table hash).isNone) :
    Inserted k table element hash (answer, Function.update table (lowOctet hash) slot) where
  good i := by
    by_cases hi : i = lowOctet hash
    · subst hi
      simpa using hgood
    · simpa [Function.update_of_ne hi] using htable i
  find q := by
    by_cases hq : lowOctet q = lowOctet hash
    · rw [← hfind q hq, checkForAndReturnValue, hq]
      simp only [Function.update_self]
    · have hne : q ≠ hash := fun h => hq (congrArg lowOctet h)
      rw [if_neg hne, checkForAndReturnValue]
      simp only [Function.update_of_ne hq]
      rfl
  answer := hanswer

theorem Inserted.of_present {k : ℕ} {table : Table α} {element : α} {hash : Hash}
    (htable : table.Good k) (h : (checkForAndReturnValue table hash).isSome) :
    Inserted k table element hash (false, table) where
  good := htable
  find q := by
    split
    · next hq => rw [hq, Option.or_of_isSome h]
    · rfl
  answer := by simpa using h

theorem split_find {q hash other : Hash} {element value : α} (hq : lowOctet q = lowOctet hash)
    (hother : lowOctet q = lowOctet other) :
    (if shifted q = shifted hash then some element
      else if shifted q = shifted other then some value else none) =
      if q = hash then (none : Option α).or (some element)
      else if other = q then some value else none := by
  by_cases h1 : q = hash
  · simp [h1]
  · have hs1 : shifted q ≠ shifted hash := fun h => h1 (eq_of_shifted_eq hq h)
    rw [if_neg h1, if_neg hs1]
    by_cases h2 : q = other
    · simp [h2]
    · have hs2 : shifted q ≠ shifted other := fun h => h2 (eq_of_shifted_eq hother h)
      rw [if_neg hs2, if_neg (Ne.symm h2)]

/-- Two values in one slot differ above their lowest octet, so a level is left. -/
theorem deeper {k : ℕ} {hash other : Hash} (hlow : lowOctet other = lowOctet hash)
    (hother : other.toNat < 256 ^ (k + 1)) (hhash : hash.toNat < 256 ^ (k + 1))
    (hne : hash ≠ other) :
    1 ≤ k ∧ (shifted other).toNat < 256 ^ k ∧ (shifted hash).toNat < 256 ^ k ∧
      shifted hash ≠ shifted other := by
  have hshift : shifted hash ≠ shifted other :=
    fun h => hne (eq_of_shifted_eq hlow.symm h)
  have hpos : k ≠ 0 := by
    rintro rfl
    refine hshift (BitVec.eq_of_toNat_eq ?_)
    rw [toNat_shifted, toNat_shifted]
    omega
  refine ⟨by omega, ?_, ?_, hshift⟩ <;>
  · rw [toNat_shifted]
    rw [pow_succ] at hother hhash
    omega

/-- Two values are inserted into a new table, one after the other. -/
theorem Inserted.pair {k : ℕ} {value element : α} {other hash : Hash}
    {first second : Bool × Table α} (hfirst : Inserted k newTable value other first)
    (hsecond : Inserted k first.2 element hash second) (hne : hash ≠ other) :
    first.1 = true ∧ second.1 = true ∧ ∀ q, checkForAndReturnValue second.2 q =
      if q = hash then some element else if q = other then some value else none := by
  have hfind : ∀ q, checkForAndReturnValue first.2 q = if q = other then some value else none :=
    hfirst.find
  refine ⟨hfirst.answer, ?_, fun q => ?_⟩
  · rw [hsecond.answer, hfind, if_neg hne]
    rfl
  · rw [hsecond.find, hfind, hfind, if_neg hne]
    rfl

theorem insert_inserted (k : ℕ) (hk : 1 ≤ k) (table : Table α) (element : α) (hash : Hash)
    (htable : table.Good k) (hhash : hash.toNat < 256 ^ k) :
    Inserted k table element hash (insert k table element hash) := by
  induction k generalizing table element hash with
  | zero => omega
  | succ k ih =>
      have hslot := htable (lowOctet hash)
      unfold insert
      split
      · next hnull =>
          have hfind : ∀ q, lowOctet q = lowOctet hash → checkForAndReturnValue table q = none := by
            intro q hq
            rw [checkForAndReturnValue, hq, hnull]
            rfl
          refine .of_slot htable ⟨rfl, hhash⟩ ?_ (by rw [hfind hash rfl]; rfl)
          intro q hq
          rw [hfind q hq, hfind hash rfl]
          simp [HashSlot.find, eq_comm]
      · next other value hleaf =>
          rw [hleaf] at hslot
          have hcheck : ∀ q, lowOctet q = lowOctet hash →
              checkForAndReturnValue table q = if other = q then some value else none := by
            intro q hq
            rw [checkForAndReturnValue, hq, hleaf]
            rfl
          split
          · next heq =>
              exact .of_present htable (by rw [hcheck hash rfl, if_pos heq.symm]; rfl)
          · next hne =>
              obtain ⟨hpos, hother, hshifted, hdiff⟩ := deeper hslot.1 hslot.2 hhash hne
              have first := ih hpos newTable value (shifted other) (good_newTable k) hother
              have second := ih hpos _ element (shifted hash) first.good hshifted
              obtain ⟨hfirst, hsecond, hfind⟩ := first.pair second hdiff
              simp only [splitAndInsert, if_pos (And.intro hfirst hsecond)]
              refine .of_slot htable ⟨hslot.1, hslot.2, second.good, ?_⟩ ?_ ?_
              · rw [HashSlot.find, ← checkForAndReturnValue, hfind, if_neg hdiff.symm, if_pos rfl]
                rfl
              · intro q hq
                rw [HashSlot.find, ← checkForAndReturnValue, hfind, hcheck hash rfl,
                  if_neg (Ne.symm hne), hcheck q hq]
                exact split_find hq (hq.trans hslot.1.symm)
              · rw [hcheck hash rfl, if_neg (Ne.symm hne)]
                rfl
      · next other sub hnode =>
          rw [hnode] at hslot
          obtain ⟨hlow, hother, hsub, hpresent⟩ := hslot
          have hcheck : ∀ q, lowOctet q = lowOctet hash →
              checkForAndReturnValue table q = checkForAndReturnValue sub (shifted q) := by
            intro q hq
            rw [checkForAndReturnValue, hq, hnode]
            rfl
          split
          · next heq =>
              refine .of_present htable ?_
              rw [hcheck hash rfl, heq]
              exact hpresent
          · next hne =>
              obtain ⟨hpos, -, hshifted, hdiff⟩ := deeper hlow hother hhash hne
              have deeper := ih hpos sub element (shifted hash) hsub hshifted
              refine .of_slot htable ⟨hlow, hother, deeper.good, ?_⟩ ?_ ?_
              · rw [HashSlot.find, ← checkForAndReturnValue, deeper.find, if_neg hdiff.symm]
                exact hpresent
              · intro q hq
                rw [HashSlot.find, ← checkForAndReturnValue, deeper.find, hcheck hash rfl,
                  hcheck q hq]
                by_cases h : q = hash
                · rw [if_pos h, if_pos (congrArg shifted h)]
                · rw [if_neg h, if_neg fun hs => h (eq_of_shifted_eq hq hs)]
              · rw [deeper.answer, hcheck hash rfl]

/-- Inserting adds a value to the map, unless the hash value has one. -/
theorem insert_spec {table : Table α} (htable : table.Good levels) (element : α) (hash : Hash) :
    Inserted levels table element hash (insert levels table element hash) :=
  insert_inserted levels (by decide) table element hash htable hash.isLt

end Tables

end Esnacc
