import Esnacc.Runtime.Hash
import Esnacc.Runtime.Int

/-!
The tables behind `ANY DEFINED BY`: a type is registered for an object identifier
or for an integer, and an `AsnAny` is given the type that its identifier hashes to.
-/

namespace Esnacc

open BitString

/-- `α` is the type of the objects that are cloned. -/
structure AnyInfo (α : Type) where
  anyId : ℤ
  oid : List Octet
  intId : ℤ
  typeToClone : α
  deriving DecidableEq, Repr

namespace AsnAny

variable {α : Type}

/-- A table that is made when it is first needed. -/
abbrev HashTbl (α : Type) := Option (Table (AnyInfo α))

/-- `Insert` into the table, which `InitHash` provides if there is none. -/
def install (tbl : HashTbl α) (a : AnyInfo α) (hash : Hash) : HashTbl α :=
  some (insert levels (tbl.getD newTable) a hash).2

def lookup (tbl : HashTbl α) (hash : Hash) : Option (AnyInfo α) :=
  tbl.bind fun table => checkForAndReturnValue table hash

/-- An `AsnOid` is the string of its encoded octets. -/
def installAnyByOid (tbl : HashTbl α) (oid : List Octet) (anyId : ℤ) (type : α) : HashTbl α :=
  install tbl ⟨anyId, oid, 0, type⟩ (makeHash oid)

/-- The new `ai`. -/
def setTypeByOid (tbl : HashTbl α) (id : List Octet) : Option (AnyInfo α) :=
  lookup tbl (makeHash id)

/-- `AsnIntType`. -/
abbrev AsnIntType := {z : ℤ // -2 ^ 31 ≤ z ∧ z < 2 ^ 31}

/-- The table exists already when `intval` is set. -/
def installAnyByInt (tbl : HashTbl α) (intId : AsnIntType) (anyId : ℤ) (type : α) : HashTbl α :=
  match AsnInt.set intId.val with
  | .ok intval => install tbl ⟨anyId, [], intId, type⟩ (makeHash intval.mBytes)
  | .error _ => some (tbl.getD newTable)

/-- The new `ai`. -/
def setTypeByInt (tbl : HashTbl α) (id : AsnInt) : Option (AnyInfo α) :=
  lookup tbl (makeHash id.mBytes)

/-- The octets of the `AsnInt` that an integer is converted to. -/
def contentOf (intId : AsnIntType) : List Octet :=
  AsnInt.derOctets (AsnInt.bigEndian intId.val) (0 ≤ intId.val)

theorem installAnyByInt_eq (tbl : HashTbl α) (intId : AsnIntType) (anyId : ℤ) (type : α) :
    installAnyByInt tbl intId anyId type =
      install tbl ⟨anyId, [], intId, type⟩ (makeHash (contentOf intId)) := by
  rw [installAnyByInt, (AsnInt.set_eq intId.property.1 intId.property.2).1]
  rfl

/-! ### Registering -/

/-- The tables after registrations in turn. -/
def registerOids (rs : List (List Octet × ℤ × α)) : HashTbl α :=
  rs.foldl (fun tbl r => installAnyByOid tbl r.1 r.2.1 r.2.2) none

def registerInts (rs : List (AsnIntType × ℤ × α)) : HashTbl α :=
  rs.foldl (fun tbl r => installAnyByInt tbl r.1 r.2.1 r.2.2) none

/-- What has been inserted is a good table, and a hash value finds what was
inserted with it first. -/
theorem install_all (rs : List (Hash × AnyInfo α)) :
    ((rs.foldl (fun tbl r => install tbl r.2 r.1) none).getD newTable).Good levels ∧
      ∀ q, lookup (rs.foldl (fun tbl r => install tbl r.2 r.1) none) q =
        (rs.find? (fun r => r.1 = q)).map Prod.snd := by
  induction rs using List.reverseRecOn with
  | nil => exact ⟨good_newTable levels, fun q => rfl⟩
  | append_singleton rs r ih =>
      obtain ⟨hgood, hfind⟩ := ih
      rw [List.foldl_concat]
      generalize rs.foldl (fun tbl r => install tbl r.2 r.1) none = tbl at hgood hfind
      have hcheck : ∀ q, checkForAndReturnValue (tbl.getD newTable) q =
          (rs.find? (fun r => r.1 = q)).map Prod.snd := by
        intro q
        rw [← hfind q]
        cases tbl <;> rfl
      have hinsert := insert_spec hgood r.2 r.1
      refine ⟨hinsert.good, fun q => ?_⟩
      rw [List.find?_append, Option.map_or, ← hcheck q]
      refine (hinsert.find q).trans ?_
      by_cases hq : q = r.1
      · simp [hq]
      · simp [hq, Ne.symm hq]

/-- A search for one property that first meets an element with another one agrees
with the search for that one. -/
theorem find_eq_find_iff {β : Type} (l : List β) (p q : β → Bool)
    (h : ∀ e ∈ l, q e = true → p e = true) :
    l.find? p = l.find? q ↔ ∀ e ∈ l.find? p, q e = true := by
  induction l with
  | nil => simp
  | cons e l ih =>
      have ih' := ih fun e he => h e (List.mem_cons_of_mem _ he)
      by_cases hp : p e = true
      · by_cases hq : q e = true
        · simp [hp, hq]
        · constructor
          · intro heq e' he'
            rw [heq] at he'
            exact List.find?_some he'
          · intro hall
            exact absurd (hall e (by simp [hp])) hq
      · have hq : ¬ q e = true := fun hq => hp (h e List.mem_cons_self hq)
        simpa [List.find?_cons, hp, hq] using ih'

def oidInfo (r : List Octet × ℤ × α) : AnyInfo α := ⟨r.2.1, r.1, 0, r.2.2⟩

def intInfo (r : AsnIntType × ℤ × α) : AnyInfo α := ⟨r.2.1, [], r.1, r.2.2⟩

theorem oidInfo_injective : Function.Injective (oidInfo : List Octet × ℤ × α → AnyInfo α) := by
  rintro ⟨o, i, t⟩ ⟨o', i', t'⟩ h
  simp only [oidInfo, AnyInfo.mk.injEq] at h
  obtain ⟨rfl, rfl, -, rfl⟩ := h
  rfl

theorem intInfo_injective : Function.Injective (intInfo : AsnIntType × ℤ × α → AnyInfo α) := by
  rintro ⟨z, i, t⟩ ⟨z', i', t'⟩ h
  simp only [intInfo, AnyInfo.mk.injEq, Subtype.val_inj] at h
  obtain ⟨rfl, -, rfl, rfl⟩ := h
  rfl

theorem setTypeByOid_registerOids (rs : List (List Octet × ℤ × α)) (o : List Octet) :
    setTypeByOid (registerOids rs) o =
      (rs.find? fun r => makeHash r.1 = makeHash o).map oidInfo := by
  have h := (install_all (rs.map fun r => (makeHash r.1, oidInfo r))).2 (makeHash o)
  rw [List.foldl_map, List.find?_map, Option.map_map] at h
  exact h

theorem setTypeByInt_registerInts (rs : List (AsnIntType × ℤ × α)) (x : AsnInt) :
    setTypeByInt (registerInts rs) x =
      (rs.find? fun r => makeHash (contentOf r.1) = makeHash x.mBytes).map intInfo := by
  have h := (install_all (rs.map fun r => (makeHash (contentOf r.1), intInfo r))).2
    (makeHash x.mBytes)
  rw [List.foldl_map, List.find?_map, Option.map_map] at h
  simp only [setTypeByInt, registerInts, installAnyByInt_eq]
  exact h

/-! ### Exact resolution -/

/-- The entry of exactly the identifier `o`. -/
def exactByOid (rs : List (List Octet × ℤ × α)) (o : List Octet) : Option (AnyInfo α) :=
  (rs.find? fun r => r.1 = o).map oidInfo

/-- The entry of exactly the integer that `x` holds. -/
def exactByInt (rs : List (AsnIntType × ℤ × α)) (x : AsnInt) : Option (AnyInfo α) :=
  (rs.find? fun r => r.1.val = x.value).map intInfo

/-- The first entry with the hash value of `o`, if there is one, is that of `o`. -/
def HashesToOid (rs : List (List Octet × ℤ × α)) (o : List Octet) : Prop :=
  ∀ r ∈ rs.find? (fun r => makeHash r.1 = makeHash o), r.1 = o

/-- The first entry with the hash value of the octets of `x`, if there is one, is
that of its integer; and an entry of the integer has that hash value, which it
has whenever `x` is in the shortest form. -/
def HashesToInt (rs : List (AsnIntType × ℤ × α)) (x : AsnInt) : Prop :=
  (∀ r ∈ rs.find? (fun r => makeHash (contentOf r.1) = makeHash x.mBytes), r.1.val = x.value) ∧
    ∀ r ∈ rs, r.1.val = x.value → makeHash (contentOf r.1) = makeHash x.mBytes

theorem setTypeByOid_exact_iff (rs : List (List Octet × ℤ × α)) (o : List Octet) :
    setTypeByOid (registerOids rs) o = exactByOid rs o ↔ HashesToOid rs o := by
  rw [setTypeByOid_registerOids, exactByOid, (Option.map_injective oidInfo_injective).eq_iff,
    find_eq_find_iff]
  · simp [HashesToOid]
  · intro r _ hr
    simp only [decide_eq_true_eq] at hr ⊢
    rw [hr]

theorem setTypeByInt_exact_iff (rs : List (AsnIntType × ℤ × α)) (x : AsnInt) :
    setTypeByInt (registerInts rs) x = exactByInt rs x ↔ HashesToInt rs x := by
  rw [setTypeByInt_registerInts, exactByInt, (Option.map_injective intInfo_injective).eq_iff]
  constructor
  · intro h
    have hhash : ∀ r ∈ rs, r.1.val = x.value → makeHash (contentOf r.1) = makeHash x.mBytes := by
      intro r hr hvalue
      have hsome : (rs.find? fun r => decide (r.1.val = x.value)).isSome := by
        rw [List.find?_isSome]
        exact ⟨r, hr, decide_eq_true hvalue⟩
      obtain ⟨r', hr'⟩ := Option.isSome_iff_exists.mp hsome
      have hval : r'.1.val = x.value := by simpa using List.find?_some hr'
      have hkey : makeHash (contentOf r'.1) = makeHash x.mBytes := by
        simpa using List.find?_some (h.trans hr')
      rwa [Subtype.ext (hvalue.trans hval.symm)]
    refine ⟨?_, hhash⟩
    intro r hr
    simpa using List.find?_some (h.symm.trans hr)
  · rintro ⟨hfirst, hhash⟩
    refine (find_eq_find_iff rs _ _ ?_).mpr ?_
    · intro r hr hvalue
      exact decide_eq_true (hhash r hr (of_decide_eq_true hvalue))
    · intro r hr
      exact decide_eq_true (hfirst r hr)

/-- Identifiers are told apart by their hash values alone. -/
theorem resolution_exact_iff (α : Type) :
    (∀ (rs : List (List Octet × ℤ × α)) (o : List Octet),
      setTypeByOid (registerOids rs) o = exactByOid rs o ↔ HashesToOid rs o) ∧
    ∀ (rs : List (AsnIntType × ℤ × α)) (x : AsnInt),
      setTypeByInt (registerInts rs) x = exactByInt rs x ↔ HashesToInt rs x :=
  ⟨setTypeByOid_exact_iff, setTypeByInt_exact_iff⟩

/-- `0.5` is registered and `0.0.5` is not, but a leading zero octet does not change
a hash value. Nor does the one that distinguishes 128 from -128. -/
theorem not_resolution_exact :
    (¬ ∀ (rs : List (List Octet × ℤ × Unit)) (o : List Octet), (rs.map Prod.fst).Nodup →
      setTypeByOid (registerOids rs) o = exactByOid rs o) ∧
    ¬ ∀ (rs : List (AsnIntType × ℤ × Unit)) (x : AsnInt), (rs.map Prod.fst).Nodup →
      setTypeByInt (registerInts rs) x = exactByInt rs x := by
  constructor
  · intro h
    have hexact := h [([5], 1, ())] [0, 5] (by simp)
    rw [setTypeByOid_registerOids] at hexact
    exact absurd hexact (by decide)
  · intro h
    have hexact := h [(⟨-128, by decide⟩, 1, ())] ⟨128, [0x00, 0x80]⟩ (by simp)
    rw [setTypeByInt_registerInts] at hexact
    exact absurd hexact (by decide)

end AsnAny

end Esnacc
