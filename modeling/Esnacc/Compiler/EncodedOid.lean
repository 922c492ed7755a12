import Mathlib
import Esnacc.Lib.BitString

/-!
OBJECT IDENTIFIERs of the compiler: a linked list of arcs of the type `long`, and its octets. When
the octets are read, an arc is put together in an `int`.
-/

namespace Esnacc.Compiler.EncodedOid

open BitString

/-- A `long` as an `unsigned long`. -/
def unsigned (z : ℤ) : ℕ := (z % 2 ^ 64).toNat

/-- The passes of `(tmpArcNum >>= 7) != 0`, of which an `unsigned long` has no more than nine. -/
def moreGroupsLoop : ℕ → ℕ → ℕ
  | 0, _ => 0
  | fuel + 1, tmpArcNum =>
      if tmpArcNum / 128 = 0 then 0 else moreGroupsLoop fuel (tmpArcNum / 128) + 1

def moreGroups (arcNum : ℕ) : ℕ := moreGroupsLoop 10 arcNum

/-- The first two arcs munged together. -/
def headArcNum (first second : ℤ) : ℕ := unsigned (first * 40 + second)

def encodedOidLen : List ℤ → ℕ
  | first :: second :: oid =>
      1 + moreGroups (headArcNum first second) +
        (oid.map fun arcNum => 1 + moreGroups (unsigned arcNum)).sum
  | _ => 0

/-- An octet with the 'more' bit set. -/
def moreOctet (arcNum : ℤ) : Octet := 0x80 ||| BitVec.ofInt 8 arcNum

def lastOctet (arcNum : ℤ) : Octet := 0x7f &&& BitVec.ofInt 8 arcNum

def arcOctets (arcNum : ℤ) : List Octet :=
  let len := moreGroups (unsigned arcNum)
  (List.range len).map (fun i => moreOctet (arcNum >>> ((len - i) * 7))) ++ [lastOctet arcNum]

def buildEncodedOid : List ℤ → List Octet
  | first :: second :: oid => arcOctets (headArcNum first second) ++ oid.flatMap arcOctets
  | _ => []

/-- `(int)octetLen`, with zero for a negative one. -/
def intLen (octetLen : ℕ) : ℕ :=
  if octetLen % 2 ^ 32 < 2 ^ 31 then octetLen % 2 ^ 32 else 0

/-- `(arcNum << 7) + (octet & 0x7f)` of the type `int`. -/
def shiftIn (arcNum : ℤ) (octet : Octet) : ℤ :=
  Int.bmod (arcNum * 128 + (octet.toNat % 128 : ℕ)) (2 ^ 32)

/-- Reads an arc; `left` octets are left to the end. The octet behind those with the 'more' bit
is read without a look at the end, and there is `none` if it is not there. -/
def readArc : (left : ℕ) → List Octet → ℤ → Option (ℤ × ℕ × List Octet)
  | _, [], _ => none
  | 0, octet :: octs, arcNum => some (shiftIn arcNum octet, 0, octs)
  | left + 1, octet :: octs, arcNum =>
      if 128 ≤ octet.toNat then readArc left octs (shiftIn arcNum octet)
      else some (shiftIn arcNum octet, left, octs)

/-- The loop over the further arcs, with a pass for each octet at most. -/
def readArcs : ℕ → (left : ℕ) → List Octet → Option (List ℤ)
  | 0, _, _ => some []
  | _ + 1, 0, _ => some []
  | fuel + 1, left + 1, octs =>
      (readArc (left + 1) octs 0).bind fun r => (readArcs fuel r.2.1 r.2.2).map (r.1 :: ·)

/-- The head split into the first two arcs. -/
def splitHead (arcNum : ℤ) : ℤ × ℤ :=
  let firstArcNum := if 2 < arcNum.tdiv 40 then 2 else arcNum.tdiv 40
  (firstArcNum, arcNum - firstArcNum * 40)

/-- The arcs, or `none` if an octet outside of the string is read. -/
def unbuildEncodedOid (octs : List Octet) : Option (List ℤ) :=
  (readArc (intLen octs.length) octs 0).bind fun r =>
    (readArcs r.2.1 r.2.1 r.2.2).map fun oid =>
      (splitHead r.1).1 :: (splitHead r.1).2 :: oid

/-- An OBJECT IDENTIFIER whose arcs are of the type `long`. -/
structure Valid (oid : List ℤ) : Prop where
  arcs : ∀ arcNum ∈ oid, 0 ≤ arcNum ∧ arcNum < 2 ^ 63
  head : ∃ first second rest, oid = first :: second :: rest ∧ first ≤ 2 ∧
    (first < 2 → second < 40)

/-! ### The length -/

theorem length_arcOctets (arcNum : ℤ) :
    (arcOctets arcNum).length = 1 + moreGroups (unsigned arcNum) := by
  simp [arcOctets, Nat.add_comm]

theorem unsigned_natCast {n : ℕ} (h : n < 2 ^ 64) : unsigned n = n := by
  simp only [unsigned]
  omega

theorem headArcNum_lt (first second : ℤ) : headArcNum first second < 2 ^ 64 := by
  simp only [headArcNum, unsigned]
  omega

theorem length_buildEncodedOid (oid : List ℤ) :
    (buildEncodedOid oid).length = encodedOidLen oid := by
  rcases oid with _ | ⟨first, _ | ⟨second, oid⟩⟩
  · rfl
  · rfl
  · rw [buildEncodedOid, encodedOidLen, List.length_append, length_arcOctets,
      unsigned_natCast (headArcNum_lt first second), List.length_flatMap]
    simp only [length_arcOctets]

/-! ### The octets of an arc -/

theorem toNat_or_more (octet : Octet) :
    (0x80 ||| octet : Octet).toNat = 128 + octet.toNat % 128 := by
  revert octet
  decide

theorem toNat_ofInt (n : ℕ) : (BitVec.ofInt 8 n).toNat % 128 = n % 128 := by
  rw [BitVec.ofInt_natCast, BitVec.toNat_ofNat]
  omega

theorem toNat_moreOctet (n : ℕ) : (moreOctet n).toNat = 128 + n % 128 := by
  rw [moreOctet, toNat_or_more, toNat_ofInt]

theorem toNat_lastOctet (n : ℕ) : (lastOctet n).toNat = n % 128 := by
  rw [lastOctet, BitVec.toNat_and, Nat.and_comm, ← toNat_ofInt]
  exact Nat.and_two_pow_sub_one_eq_mod _ 7

theorem div_moreGroupsLoop {fuel n : ℕ} (h : n < 128 ^ (fuel + 1)) :
    n / 128 ^ (moreGroupsLoop fuel n + 1) = 0 := by
  induction fuel generalizing n with
  | zero => simpa [moreGroupsLoop] using h
  | succ fuel ih =>
      rw [moreGroupsLoop]
      split
      · next hzero => simpa using hzero
      · have hlt : n / 128 < 128 ^ (fuel + 1) := by
          rw [Nat.div_lt_iff_lt_mul (by norm_num), ← pow_succ]
          exact h
        rw [Nat.pow_succ', ← Nat.div_div_eq_div_mul]
        exact ih hlt

theorem moreGroupsLoop_le (fuel n : ℕ) : moreGroupsLoop fuel n ≤ fuel := by
  induction fuel generalizing n with
  | zero => exact Nat.le_refl 0
  | succ fuel ih =>
      rw [moreGroupsLoop]
      split
      · exact Nat.zero_le _
      · exact Nat.succ_le_succ (ih _)

/-- The octets in front of the last one. -/
def moreOctets (n : ℕ) : ℕ → List Octet
  | 0 => []
  | len + 1 => moreOctet (n / 128 ^ (len + 1) : ℕ) :: moreOctets n len

theorem shiftRight_groups (n len : ℕ) : (n : ℤ) >>> (len * 7) = (n / 128 ^ len : ℕ) := by
  rw [Int.shiftRight_eq_div_pow, Nat.mul_comm, pow_mul]
  norm_num

theorem arcOctets_natCast {n : ℕ} (h : n < 2 ^ 64) :
    arcOctets n = moreOctets n (moreGroups n) ++ [lastOctet n] := by
  -- the loop writes the highest group first
  have hmore (len : ℕ) : (List.range len).map
      (fun i => moreOctet ((n : ℤ) >>> ((len - i) * 7))) = moreOctets n len := by
    induction len with
    | zero => rfl
    | succ len ih =>
        rw [List.range_succ_eq_map, List.map_cons, List.map_map, moreOctets, ← ih, Nat.sub_zero,
          shiftRight_groups]
        simp [Function.comp_def]
  rw [arcOctets, unsigned_natCast h, hmore]

/-! ### Reading an arc -/

theorem shiftIn_bmod (n : ℕ) (octet : Octet) (h : octet.toNat % 128 = n % 128) :
    shiftIn (Int.bmod (n / 128 : ℕ) (2 ^ 32)) octet = Int.bmod n (2 ^ 32) := by
  have hsplit : (n : ℤ) = (n / 128 : ℕ) * 128 + (n % 128 : ℕ) := by
    omega
  have hshift : (Int.bmod (n / 128 : ℕ) (2 ^ 32) * 128).bmod (2 ^ 32) =
      (((n / 128 : ℕ) : ℤ) * 128).bmod (2 ^ 32) :=
    Int.bmod_mul_bmod
  rw [shiftIn, h]
  conv_rhs => rw [hsplit]
  rw [← Int.bmod_add_bmod, hshift, Int.bmod_add_bmod]

/-- An arc that is read as a whole. -/
theorem readArc_octets (n : ℕ) {len left : ℕ} (h : len ≤ left) (rest : List Octet) :
    readArc left (moreOctets n len ++ lastOctet n :: rest)
        (Int.bmod (n / 128 ^ (len + 1) : ℕ) (2 ^ 32)) =
      some (Int.bmod n (2 ^ 32), left - (len + 1), rest) := by
  induction len generalizing left with
  | zero =>
      have hlast : ¬ 128 ≤ (lastOctet n).toNat := by
        rw [toNat_lastOctet]
        omega
      have hshift := shiftIn_bmod n (lastOctet n) (by rw [toNat_lastOctet, Nat.mod_mod])
      rw [Nat.zero_add, pow_one, moreOctets, List.nil_append]
      cases left with
      | zero => rw [readArc, hshift]
      | succ left => rw [readArc, if_neg hlast, hshift, Nat.succ_sub_one]
  | succ len ih =>
      obtain ⟨left, rfl⟩ := Nat.exists_eq_succ_of_ne_zero (Nat.ne_of_gt (Nat.lt_of_lt_of_le
        (Nat.succ_pos len) h))
      have hmore := toNat_moreOctet (n / 128 ^ (len + 1))
      have hshift := shiftIn_bmod (n / 128 ^ (len + 1)) (moreOctet (n / 128 ^ (len + 1) : ℕ))
        (by omega)
      rw [Nat.div_div_eq_div_mul, ← pow_succ] at hshift
      rw [moreOctets, List.cons_append, readArc, if_pos (by omega), hshift,
        ih (Nat.le_of_succ_le_succ h), Nat.succ_sub_succ]

/-- An arc that is cut off. -/
theorem readArc_cut (n : ℕ) {len left : ℕ} (h : left ≤ len) (rest : List Octet) (arcNum : ℤ) :
    ∃ v octs, readArc left (moreOctets n len ++ lastOctet n :: rest) arcNum =
      some (v, 0, octs) := by
  induction len generalizing left arcNum with
  | zero =>
      obtain rfl := Nat.le_zero.mp h
      exact ⟨_, _, rfl⟩
  | succ len ih =>
      rw [moreOctets, List.cons_append]
      cases left with
      | zero => exact ⟨_, _, rfl⟩
      | succ left =>
          have hmore := toNat_moreOctet (n / 128 ^ (len + 1))
          rw [readArc, if_pos (by omega)]
          exact ih (Nat.le_of_succ_le_succ h) _

theorem moreGroups_le (n : ℕ) : moreGroups n ≤ 10 :=
  moreGroupsLoop_le 10 n

theorem div_moreGroups {n : ℕ} (h : n < 2 ^ 64) : n / 128 ^ (moreGroups n + 1) = 0 :=
  div_moreGroupsLoop (Nat.lt_trans h (by norm_num))

theorem length_arcOctets_natCast {n : ℕ} (h : n < 2 ^ 64) :
    (arcOctets n).length = moreGroups n + 1 := by
  rw [length_arcOctets, unsigned_natCast h, Nat.add_comm]

theorem readArc_arcOctets {n : ℕ} (h : n < 2 ^ 64) {left : ℕ} (hleft : moreGroups n ≤ left)
    (rest : List Octet) :
    readArc left (arcOctets n ++ rest) 0 =
      some (Int.bmod n (2 ^ 32), left - (moreGroups n + 1), rest) := by
  have hread := readArc_octets n hleft rest
  rw [div_moreGroups h] at hread
  rw [arcOctets_natCast h, List.append_assoc]
  exact hread

theorem readArc_arcOctets_cut {n : ℕ} (h : n < 2 ^ 64) {left : ℕ} (hleft : left ≤ moreGroups n)
    (rest : List Octet) :
    ∃ v octs, readArc left (arcOctets n ++ rest) 0 = some (v, 0, octs) := by
  rw [arcOctets_natCast h, List.append_assoc]
  exact readArc_cut n hleft rest 0

/-! ### Reading the further arcs -/

def natOctets (oid : List ℕ) : List Octet :=
  oid.flatMap fun n : ℕ => arcOctets n

theorem natOctets_cons (n : ℕ) (oid : List ℕ) :
    natOctets (n :: oid) = arcOctets n ++ natOctets oid :=
  List.flatMap_cons

theorem length_natOctets_cons {n : ℕ} (h : n < 2 ^ 64) (oid : List ℕ) :
    (natOctets (n :: oid)).length = moreGroups n + 1 + (natOctets oid).length := by
  rw [natOctets_cons, List.length_append, length_arcOctets_natCast h]

theorem readArcs_octets {oid : List ℕ} (h : ∀ n ∈ oid, n < 2 ^ 64) {fuel : ℕ}
    (hfuel : (natOctets oid).length ≤ fuel) :
    readArcs fuel (natOctets oid).length (natOctets oid) =
      some (oid.map fun n : ℕ => Int.bmod n (2 ^ 32)) := by
  induction oid generalizing fuel with
  | nil => cases fuel <;> rfl
  | cons n oid ih =>
      have hn := h n List.mem_cons_self
      have hlen : (natOctets (n :: oid)).length =
          moreGroups n + (natOctets oid).length + 1 := by
        rw [length_natOctets_cons hn]
        omega
      have hread := @readArc_arcOctets n hn (moreGroups n + (natOctets oid).length + 1)
        (by omega) (natOctets oid)
      obtain ⟨fuel, rfl⟩ := Nat.exists_eq_succ_of_ne_zero (n := fuel) (by omega)
      rw [hlen, readArcs, natOctets_cons, hread, Option.bind_some]
      have hleft : moreGroups n + (natOctets oid).length + 1 - (moreGroups n + 1) =
          (natOctets oid).length := by
        omega
      rw [hleft, ih (fun m hm => h m (List.mem_cons_of_mem n hm)) (by omega), Option.map_some,
        List.map_cons]

/-- All arcs are only read if none but the last one is cut off. -/
theorem length_of_readArcs {oid : List ℕ} (h : ∀ n ∈ oid, n < 2 ^ 64) {fuel left : ℕ}
    {arcs : List ℤ} (hread : readArcs fuel left (natOctets oid) = some arcs)
    (hall : arcs.length = oid.length) : (natOctets oid).length ≤ left + 10 := by
  induction oid generalizing fuel left arcs with
  | nil => exact Nat.zero_le _
  | cons n oid ih =>
      have hn := h n List.mem_cons_self
      have hlen := length_natOctets_cons hn oid
      have hmore := moreGroups_le n
      cases fuel with
      | zero =>
          rw [readArcs, Option.some_inj] at hread
          subst hread
          simp at hall
      | succ fuel =>
      cases left with
      | zero =>
          rw [readArcs, Option.some_inj] at hread
          subst hread
          simp at hall
      | succ left =>
          rw [readArcs, natOctets_cons] at hread
          rcases Nat.lt_or_ge (moreGroups n) (left + 1) with hle | hle
          · rw [readArc_arcOctets hn (Nat.le_of_lt hle), Option.bind_some,
              Option.map_eq_some_iff] at hread
            obtain ⟨arcs', hread, rfl⟩ := hread
            have hrec := ih (fun m hm => h m (List.mem_cons_of_mem n hm)) hread
              (by simpa using hall)
            dsimp only at hrec
            omega
          · obtain ⟨v, octs, hcut⟩ := readArc_arcOctets_cut hn hle (natOctets oid)
            rw [hcut, Option.bind_some, Option.map_eq_some_iff] at hread
            obtain ⟨arcs', hread, rfl⟩ := hread
            have hnone : arcs' = [] := by
              cases fuel <;> simpa [readArcs] using hread.symm
            subst hnone
            obtain rfl : oid = [] := by
              simpa using hall.symm
            simp only [natOctets, List.flatMap_nil, List.length_nil] at hlen ⊢
            omega

/-! ### The round trip -/

theorem bmod_natCast_eq (n : ℕ) : Int.bmod n (2 ^ 32) = n ↔ n < 2 ^ 31 := by
  rw [Int.bmod_def]
  norm_num only
  split <;> omega

theorem intLen_of_lt {octetLen : ℕ} (h : octetLen < 2 ^ 31) : intLen octetLen = octetLen := by
  rw [intLen]
  split <;> omega

theorem intLen_of_le {octetLen : ℕ} (h : 2 ^ 31 ≤ octetLen) :
    intLen octetLen + 2 ^ 31 ≤ octetLen := by
  rw [intLen]
  split <;> omega

theorem splitHead_sum (arcNum : ℤ) :
    (splitHead arcNum).1 * 40 + (splitHead arcNum).2 = arcNum := by
  simp only [splitHead]
  omega

theorem splitHead_natCast {first second : ℕ} (h : first ≤ 2) (hsecond : first < 2 → second < 40) :
    splitHead (first * 40 + second : ℕ) = ((first : ℤ), (second : ℤ)) := by
  simp only [splitHead, Prod.mk.injEq, Int.tdiv_eq_ediv_of_nonneg (Int.natCast_nonneg _)]
  omega

/-- What the octets hold, of which `intLen` are seen. -/
theorem unbuildEncodedOid_natOctets {head : ℕ} (hhead : head < 2 ^ 64) {rest : List ℕ}
    (hrest : ∀ n ∈ rest, n < 2 ^ 64) (hlen : (natOctets (head :: rest)).length < 2 ^ 31) :
    unbuildEncodedOid (natOctets (head :: rest)) =
      some ((splitHead (Int.bmod head (2 ^ 32))).1 :: (splitHead (Int.bmod head (2 ^ 32))).2 ::
        rest.map fun n : ℕ => Int.bmod n (2 ^ 32)) := by
  have hleft : moreGroups head + 1 + (natOctets rest).length - (moreGroups head + 1) =
      (natOctets rest).length :=
    Nat.add_sub_cancel_left ..
  rw [unbuildEncodedOid, intLen_of_lt hlen, length_natOctets_cons hhead, natOctets_cons,
    readArc_arcOctets hhead (by omega), Option.bind_some, hleft,
    readArcs_octets hrest (Nat.le_refl _), Option.map_some]

theorem unbuildEncodedOid_ne {head : ℕ} (hhead : head < 2 ^ 64) {rest : List ℕ}
    (hrest : ∀ n ∈ rest, n < 2 ^ 64) (hlen : 2 ^ 31 ≤ (natOctets (head :: rest)).length)
    {oid : List ℤ} (hoid : oid.length = rest.length + 2) :
    unbuildEncodedOid (natOctets (head :: rest)) ≠ some oid := by
  intro hread
  have hleft := intLen_of_le hlen
  have hmore := moreGroups_le head
  rw [unbuildEncodedOid] at hread
  generalize intLen (natOctets (head :: rest)).length = left at hread hleft
  rw [length_natOctets_cons hhead] at hleft
  rw [natOctets_cons] at hread
  rcases Nat.le_total (moreGroups head) left with hle | hle
  · rw [readArc_arcOctets hhead hle, Option.bind_some, Option.map_eq_some_iff] at hread
    obtain ⟨arcs, hread, rfl⟩ := hread
    have hall := length_of_readArcs hrest hread (by simpa using hoid)
    dsimp only at hall
    omega
  · obtain ⟨v, octs, hcut⟩ := readArc_arcOctets_cut hhead hle (natOctets rest)
    rw [hcut, Option.bind_some, Option.map_eq_some_iff] at hread
    obtain ⟨arcs, hread, rfl⟩ := hread
    obtain rfl : [] = arcs := Option.some_inj.mp hread
    obtain rfl : rest = [] := by
      simpa using hoid.symm
    simp only [natOctets, List.flatMap_nil, List.length_nil] at hleft
    omega

def RoundTrip (oid : List ℤ) : Prop :=
  unbuildEncodedOid (buildEncodedOid oid) = some oid

/-- The head, every further arc and the number of octets fit in an `int`. -/
def Fits : List ℤ → Prop
  | first :: second :: oid =>
      first * 40 + second < 2 ^ 31 ∧ (∀ arcNum ∈ oid, arcNum < 2 ^ 31) ∧
        encodedOidLen (first :: second :: oid) < 2 ^ 31
  | _ => False

/-- The arcs of a valid OBJECT IDENTIFIER as natural numbers. -/
theorem Valid.exists_nat {oid : List ℤ} (h : Valid oid) :
    ∃ (first second : ℕ) (rest : List ℕ),
      oid = (first : ℤ) :: (second : ℤ) :: rest.map Nat.cast ∧ first ≤ 2 ∧
        (first < 2 → second < 40) ∧ second < 2 ^ 63 ∧ ∀ n ∈ rest, n < 2 ^ 63 := by
  obtain ⟨first, second, rest, rfl, hfirst, hsecond⟩ := h.head
  obtain ⟨hfirst0, -⟩ := h.arcs first (by simp)
  obtain ⟨hsecond0, hsecond1⟩ := h.arcs second (by simp)
  have hrest : ∀ arcNum ∈ rest, 0 ≤ arcNum ∧ arcNum < 2 ^ 63 := fun arcNum hmem =>
    h.arcs arcNum (List.mem_cons_of_mem _ (List.mem_cons_of_mem _ hmem))
  have hcast : (rest.map Int.toNat).map Nat.cast = rest := by
    rw [List.map_map]
    conv_rhs => rw [← List.map_id rest]
    exact List.map_congr_left fun arcNum hmem => Int.toNat_of_nonneg (hrest arcNum hmem).1
  refine ⟨first.toNat, second.toNat, rest.map Int.toNat, ?_, by omega, by omega, by omega, ?_⟩
  · rw [hcast, Int.toNat_of_nonneg hfirst0, Int.toNat_of_nonneg hsecond0]
  · intro n hn
    obtain ⟨arcNum, hmem, rfl⟩ := List.mem_map.mp hn
    have := hrest arcNum hmem
    omega

theorem roundTrip_iff {oid : List ℤ} (h : Valid oid) : RoundTrip oid ↔ Fits oid := by
  obtain ⟨first, second, rest, rfl, hfirst, hsecond, hsecond', hrest⟩ := h.exists_nat
  have hrest' : ∀ n ∈ rest, n < 2 ^ 64 := fun n hn => Nat.lt_trans (hrest n hn) (by norm_num)
  have hhead : first * 40 + second < 2 ^ 64 := by
    omega
  have hmunge : headArcNum first second = first * 40 + second := by
    rw [headArcNum, ← unsigned_natCast hhead]
    norm_num
  have hbuild : buildEncodedOid ((first : ℤ) :: (second : ℤ) :: rest.map Nat.cast) =
      natOctets ((first * 40 + second) :: rest) := by
    rw [buildEncodedOid, hmunge, natOctets_cons, List.flatMap_map]
    rfl
  rw [RoundTrip, Fits, ← length_buildEncodedOid, hbuild]
  rcases Nat.lt_or_ge (natOctets ((first * 40 + second) :: rest)).length (2 ^ 31) with hlen | hlen
  · rw [unbuildEncodedOid_natOctets hhead hrest' hlen, Option.some_inj, List.cons.injEq,
      List.cons.injEq, List.map_inj_left]
    have hsum := splitHead_sum (Int.bmod (first * 40 + second : ℕ) (2 ^ 32))
    constructor
    · rintro ⟨hone, htwo, harcs⟩
      have hint : Int.bmod (first * 40 + second : ℕ) (2 ^ 32) = (first * 40 + second : ℕ) := by
        rw [← hsum, hone, htwo]
        norm_num
      refine ⟨by have := (bmod_natCast_eq _).mp hint; omega, ?_, hlen⟩
      simp only [List.mem_map, forall_exists_index, and_imp, forall_apply_eq_imp_iff₂]
      intro n hn
      have := (bmod_natCast_eq n).mp (harcs n hn)
      omega
    · rintro ⟨hint, harcs, -⟩
      have hint' := (bmod_natCast_eq (first * 40 + second)).mpr (by omega)
      rw [hint', splitHead_natCast hfirst hsecond]
      refine ⟨rfl, rfl, fun n hn => (bmod_natCast_eq n).mpr ?_⟩
      have := harcs n (List.mem_map_of_mem hn)
      omega
  · refine iff_of_false (unbuildEncodedOid_ne hhead hrest' hlen (by simp)) fun hfits => ?_
    exact absurd hfits.2.2 (Nat.not_lt.mpr hlen)

/-! ### The octets that are read -/

/-- The last octet has no 'more' bit. -/
def Ends (octs : List Octet) : Prop :=
  ∀ octet ∈ octs.getLast?, octet.toNat < 128

/-- There is an octet, and the last one has no 'more' bit if the length fits in an `int`. -/
def Readable (octs : List Octet) : Prop :=
  octs ≠ [] ∧ (octs.length < 2 ^ 31 → Ends octs)

theorem readArc_whole {octs : List Octet} (h : octs ≠ []) (arcNum : ℤ) :
    readArc octs.length octs arcNum = none ∧ ¬ Ends octs ∨
      ∃ v rest, readArc octs.length octs arcNum = some (v, rest.length, rest) ∧
        rest.length < octs.length ∧ (Ends octs ↔ Ends rest) := by
  induction octs generalizing arcNum with
  | nil => exact absurd rfl h
  | cons octet octs ih =>
      rw [List.length_cons, readArc]
      split
      · next hmore =>
        rcases eq_or_ne octs [] with rfl | hne
        · refine Or.inl ⟨rfl, fun hends => ?_⟩
          exact absurd (hends octet rfl) (Nat.not_lt.mpr hmore)
        · have hlast : Ends (octet :: octs) ↔ Ends octs := by
            rw [Ends, Ends, List.getLast?_cons_of_ne_nil hne]
          rcases ih hne (shiftIn arcNum octet) with ⟨hnone, hends⟩ | ⟨v, rest, hread, hlt, hends⟩
          · exact Or.inl ⟨hnone, fun h => hends (hlast.mp h)⟩
          · exact Or.inr ⟨v, rest, hread, Nat.lt_succ_of_lt hlt, hlast.trans hends⟩
      · next hmore =>
        refine Or.inr ⟨_, octs, rfl, Nat.lt_succ_self _, ?_⟩
        rcases eq_or_ne octs [] with rfl | hne
        · refine iff_of_true ?_ ?_
          · rintro _ ⟨⟩
            exact Nat.lt_of_not_le hmore
          · rintro _ ⟨⟩
        · rw [Ends, Ends, List.getLast?_cons_of_ne_nil hne]

theorem readArcs_whole {fuel : ℕ} {octs : List Octet} (h : octs.length ≤ fuel) :
    readArcs fuel octs.length octs ≠ none ↔ Ends octs := by
  induction fuel generalizing octs with
  | zero =>
      obtain rfl := List.length_eq_zero_iff.mp (Nat.le_zero.mp h)
      exact iff_of_true (by simp [readArcs]) (by simp [Ends])
  | succ fuel ih =>
      rcases octs with _ | ⟨octet, octs⟩
      · exact iff_of_true (by simp [readArcs]) (by simp [Ends])
      · rw [List.length_cons, readArcs, ← List.length_cons (a := octet)]
        rcases readArc_whole (List.cons_ne_nil octet octs) 0 with
          ⟨hnone, hends⟩ | ⟨v, rest, hread, hlt, hends⟩
        · rw [hnone]
          exact iff_of_false (by simp) hends
        · rw [hread, Option.bind_some, hends, ← ih (by omega)]
          simp

/-- With fewer octets to the end than there are, none outside is read. -/
theorem readArc_short {octs : List Octet} {left : ℕ} (h : left < octs.length) (arcNum : ℤ) :
    ∃ v left' rest, readArc left octs arcNum = some (v, left', rest) ∧
      (left' = 0 ∨ left' < rest.length) := by
  induction octs generalizing left arcNum with
  | nil => exact absurd h (Nat.not_lt_zero _)
  | cons octet octs ih =>
      cases left with
      | zero => exact ⟨_, 0, octs, rfl, Or.inl rfl⟩
      | succ left =>
          rw [readArc]
          split
          · exact ih (Nat.lt_of_succ_lt_succ h) _
          · exact ⟨_, left, octs, rfl, Or.inr (Nat.lt_of_succ_lt_succ h)⟩

theorem readArcs_short (fuel : ℕ) {octs : List Octet} {left : ℕ}
    (h : left = 0 ∨ left < octs.length) : readArcs fuel left octs ≠ none := by
  induction fuel generalizing octs left with
  | zero => simp [readArcs]
  | succ fuel ih =>
      cases left with
      | zero => simp [readArcs]
      | succ left =>
          obtain ⟨v, left', rest, hread, hshort⟩ := readArc_short (h.resolve_left (by omega)) 0
          rw [readArcs, hread, Option.bind_some]
          simpa using ih hshort

theorem unbuildEncodedOid_ne_none (octs : List Octet) :
    unbuildEncodedOid octs ≠ none ↔ Readable octs := by
  rcases eq_or_ne octs [] with rfl | hne
  · exact iff_of_false (by simp [unbuildEncodedOid, readArc]) fun h => h.1 rfl
  rw [unbuildEncodedOid, Readable]
  rcases Nat.lt_or_ge octs.length (2 ^ 31) with hlt | hge
  · rw [intLen_of_lt hlt]
    rcases readArc_whole hne 0 with ⟨hnone, hends⟩ | ⟨v, rest, hread, -, hends⟩
    · rw [hnone]
      exact iff_of_false (by simp) fun h => hends (h.2 hlt)
    · have hrest := readArcs_whole (Nat.le_refl rest.length)
      rw [hread, Option.bind_some, hends, ← hrest, and_iff_right hne, forall_prop_of_true hlt]
      simp
  · have hleft := intLen_of_le hge
    obtain ⟨v, left, rest, hread, hshort⟩ :=
      @readArc_short octs (intLen octs.length) (by omega) 0
    have hrest := readArcs_short left hshort
    rw [hread, Option.bind_some]
    refine iff_of_true ?_ ⟨hne, fun h => absurd h (Nat.not_lt.mpr hge)⟩
    simpa using hrest

/-! ### The main result -/

/-- The octets are as many as were counted, the arcs come back if they fit in an `int`, and only
octets of the string are read if the last one has no 'more' bit. -/
theorem encodedOid_exact {oid : List ℤ} (h : Valid oid) (octs : List Octet) :
    (buildEncodedOid oid).length = encodedOidLen oid ∧ (RoundTrip oid ↔ Fits oid) ∧
      (unbuildEncodedOid octs ≠ none ↔ Readable octs) :=
  ⟨length_buildEncodedOid oid, roundTrip_iff h, unbuildEncodedOid_ne_none octs⟩

/-- `{2 5 2147483648}` -/
theorem encodedOid_exact_wide : ¬ RoundTrip [2, 5, 2147483648] := by
  have hvalid : Valid [2, 5, 2147483648] :=
    ⟨by decide, 2, 5, [2147483648], rfl, by decide, by decide⟩
  intro h
  have hfits := (encodedOid_exact hvalid []).2.1.mp h
  exact absurd (hfits.2.1 _ (List.mem_singleton_self _)) (by decide)

theorem not_encodedOid_inverse :
    ¬ ((∀ oid, Valid oid → RoundTrip oid) ∧ ∀ octs, unbuildEncodedOid octs ≠ none) := by
  intro h
  exact h.2 [0x2a, 0x81] rfl

end Esnacc.Compiler.EncodedOid
