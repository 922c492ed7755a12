import Esnacc.Runtime.OidText

/-!
The JSON form of OBJECT IDENTIFIER and RELATIVE-OID. It is made from the octets and parsed as
a dotted string, whose arcs take fewer octets than it has characters.
-/

namespace Esnacc

open BitString

namespace AsnRelativeOid

/-- `JDec` of what `JEnc` makes of `x`, into the object `z`, succeeds and yields `x`. -/
def JsonRoundTrips (z x : AsnRelativeOid) : Prop :=
  ∃ v y, x.jEnc = .ok v ∧ z.jDec v = .ok (y, true) ∧ y.oid = x.oid

theorem foldl_digits_lt {token : List Octet} (h : token.all isDigit = true) (n : ℕ) :
    token.foldl (fun n digit => 10 * n + (digit.toNat - 0x30)) n < (n + 1) * 10 ^ token.length := by
  induction token generalizing n with
  | nil => simp
  | cons ch token ih =>
      rw [List.all_cons, Bool.and_eq_true] at h
      have hch : 0x30 ≤ ch.toNat ∧ ch.toNat ≤ 0x39 := by simpa [isDigit] using h.1
      have hle : 10 * n + (ch.toNat - 0x30) + 1 ≤ 10 * (n + 1) := by omega
      calc (ch :: token).foldl (fun n digit => 10 * n + (digit.toNat - 0x30)) n
          < (10 * n + (ch.toNat - 0x30) + 1) * 10 ^ token.length := ih h.2 _
        _ ≤ 10 * (n + 1) * 10 ^ token.length := Nat.mul_le_mul_right _ hle
        _ = (n + 1) * 10 ^ (ch :: token).length := by rw [List.length_cons, pow_succ]; ring

theorem atol_lt_pow {token : List Octet} (h : token.all isDigit = true) :
    atol token < 10 ^ token.length := by
  have hlt := foldl_digits_lt h 0
  rw [atol]
  rw [Nat.zero_add, Nat.one_mul] at hlt
  exact (min_le_left _ _).trans_lt hlt

theorem atol_le (token : List Octet) : atol token ≤ longMax := min_le_right _ _

theorem ten_pow_le (k : ℕ) : 10 ^ (k + 2) ≤ 128 ^ (k + 1) := by
  induction k with
  | zero => norm_num
  | succ k ih =>
      rw [pow_succ, pow_succ 128 (k + 1)]
      exact Nat.mul_le_mul ih (by norm_num)

/-- An arc takes fewer octets than it has digits, except for a single digit. -/
theorem arcLen_atol {token : List Octet} (h : token.all isDigit = true) (hne : token ≠ []) :
    arcLen (atol token) + 1 ≤ token.length ∨ (token.length = 1 ∧ arcLen (atol token) = 1) := by
  have hlt := atol_lt_pow h
  have hulong : atol token < 2 ^ 64 := (atol_le token).trans_lt (by decide)
  have hpos := arcLen_pos (atol token)
  have hlen := List.length_pos_of_ne_nil hne
  generalize token.length = d at hlt hlen ⊢
  generalize atol token = n at hlt hulong hpos ⊢
  obtain ⟨k, rfl⟩ := Nat.exists_eq_add_of_lt hlen
  cases k with
  | zero =>
      have hone : arcLen n ≤ 1 := (arcLen_le_iff hulong Nat.one_pos).mpr (hlt.trans (by norm_num))
      omega
  | succ k =>
      left
      rw [show 0 + (k + 1) + 1 = k + 2 by omega] at hlt
      have hle := (arcLen_le_iff hulong (Nat.succ_pos k)).mpr (hlt.trans_le (ten_pow_le k))
      omega

/-- What a pass of the loop has found. -/
theorem parseLoop_cons {fuel : ℕ} {ch : Octet} {str : List Octet} {intArray out : List ℕ}
    (h : parseLoop (fuel + 1) (ch :: str) intArray = .ok out) :
    let pIntStr := if ch = 0x2E then str else ch :: str
    let token := pIntStr.takeWhile (· != 0x2E)
    token.all isDigit = true ∧ token ≠ [] ∧
      parseLoop fuel (pIntStr.drop token.length) (intArray ++ [atol token]) = .ok out := by
  simp only [parseLoop] at h
  dsimp only
  generalize (if ch = 0x2E then str else ch :: str) = pIntStr at h ⊢
  split at h
  · cases h
  · next hall =>
      split at h
      · cases h
      · next hempty =>
          refine ⟨by simpa using hall, ?_, h⟩
          simpa [List.isEmpty_iff] using hempty

theorem head_drop_takeWhile (str : List Octet) :
    ∀ ch ∈ (str.drop (str.takeWhile (· != 0x2E)).length).head?, ch = 0x2E := by
  induction str with
  | nil => simp
  | cons ch str ih =>
      by_cases hch : ch = 0x2E
      · simp [hch]
      · rw [List.takeWhile_cons_of_pos (by simpa using hch)]
        exact ih

/-- The tokens that follow a period: each arc takes no more octets than its token has
characters, and the period is one more. -/
theorem parseLoop_tail {fuel : ℕ} {str : List Octet} {intArray out : List ℕ}
    (hstr : ∀ ch ∈ str.head?, ch = 0x2E) (h : parseLoop fuel str intArray = .ok out) :
    ∃ arcs, out = intArray ++ arcs ∧ (∀ arc ∈ arcs, arc ≤ longMax) ∧
      totalLen arcs + arcs.length ≤ str.length := by
  induction fuel generalizing str intArray with
  | zero =>
      cases str with
      | nil => cases h; exact ⟨[], by simp [totalLen]⟩
      | cons ch str => cases h
  | succ fuel ih =>
      cases str with
      | nil => cases h; exact ⟨[], by simp [totalLen]⟩
      | cons ch str =>
          obtain rfl : ch = 0x2E := hstr ch rfl
          obtain ⟨hall, hne, hnext⟩ := parseLoop_cons h
          rw [if_pos rfl] at hall hne hnext
          obtain ⟨arcs, rfl, hle, hlen⟩ := ih (head_drop_takeWhile str) hnext
          refine ⟨atol (str.takeWhile (· != 0x2E)) :: arcs, by rw [List.append_assoc]; rfl, ?_, ?_⟩
          · rw [List.forall_mem_cons]
            exact ⟨atol_le _, hle⟩
          · have harc := arcLen_atol hall hne
            have htake := (List.takeWhile_prefix (· != (0x2E : Octet)) (l := str)).length_le
            rw [List.length_drop] at hlen
            rw [totalLen] at hlen ⊢
            rw [List.map_cons, List.sum_cons, List.length_cons, List.length_cons]
            omega

/-- The first two arcs together take no more octets than each for itself. -/
theorem arcLen_merged {first second : ℕ} (hfirst : first ≤ 2) (hsecond : second ≤ longMax) :
    arcLen ((first * 40 + second) % 2 ^ 64) ≤ arcLen first + arcLen second := by
  rw [longMax] at hsecond
  have hlt := lt_pow_arcLen (show second < 2 ^ 64 by omega)
  have hone := arcLen_pos first
  have hpos := arcLen_pos second
  rw [Nat.mod_eq_of_lt (by omega), arcLen_le_iff (by omega) (by omega)]
  have hbig : 1 ≤ 128 ^ arcLen second := Nat.one_le_pow _ _ (by norm_num)
  calc first * 40 + second < 128 ^ (1 + arcLen second) := by
        rw [pow_add]
        omega
    _ ≤ 128 ^ (arcLen first + arcLen second) :=
        Nat.pow_le_pow_right (by norm_num) (by omega)

/-- The octets of a list of arcs, none of which ends the list. -/
theorem length_oid_le {isRelative : Bool} {arcs : List ℕ} (hle : ∀ arc ∈ arcs, arc ≤ longMax)
    {x : AsnRelativeOid} (h : setArcs isRelative arcs = .ok x) :
    x.oid.length ≤ totalLen arcs ∧ (isRelative = false → 2 ≤ arcs.length) ∧ arcs ≠ [] := by
  have hmax (arc : ℕ) (harc : arc ∈ arcs) : arc ≠ ulongMax := by
    have hlong := hle arc harc
    rw [longMax] at hlong
    rw [ulongMax]
    omega
  cases arcs with
  | nil => cases h
  | cons first rest =>
      have hfirst := hmax first List.mem_cons_self
      cases isRelative with
      | true =>
          rw [setArcs] at h
          cases hbuf : encodeArcs true (first :: rest) with
          | error e =>
              rw [hbuf] at h
              cases h
          | ok buf =>
              rw [hbuf] at h
              cases h
              rw [encodeArcs_direct _ (.inl rfl), putArcs_eq_ok (Nat.zero_le _), List.nil_append,
                counted_eq hmax] at hbuf
              refine ⟨(List.length_take_le' _ _).trans ?_, by simp, by simp⟩
              rw [hbuf.1, length_octetsOf]
      | false =>
          cases rest with
          | nil =>
              rw [setArcs, encodeArcs, if_neg (by simpa using hfirst)] at h
              cases h
          | cons second rest =>
              have hsecond := hmax second (by simp)
              have htwo : first ≤ 2 := by
                by_contra hlarge
                rw [setArcs, encodeArcs, if_neg (by simpa using hfirst), if_neg hsecond,
                  if_pos (by omega)] at h
                cases h
              obtain ⟨subids, rfl, rfl, -, -⟩ := (setArcs_eq_ok htwo hsecond).mp h
              refine ⟨(List.length_take_le' _ _).trans ?_, by simp, by simp⟩
              rw [length_octetsOf, counted_eq fun arc harc => hmax arc (by simp [harc])]
              have hmerged := arcLen_merged htwo (hle second (by simp))
              simp only [totalLen, List.map_cons, List.sum_cons]
              omega

/-- A single arc that is one digit. -/
theorem oid_single {n : ℕ} (h : n < 10 ^ 1) {x : AsnRelativeOid}
    (hset : setArcs true [n] = .ok x) : ∃ octet, x.oid = [octet] ∧ octet.toNat < 10 := by
  rw [pow_one] at h
  have hlen : arcLen n = 1 := by
    refine le_antisymm ((arcLen_le_iff (by omega) Nat.one_pos).mpr (by omega)) (arcLen_pos n)
  have hoctets : octetsOf [n] = [BitVec.ofNat 8 (n % 128)] := by
    rw [octetsOf, List.flatMap_singleton, arcOctets, hlen]
    rfl
  rw [setArcs] at hset
  cases hbuf : encodeArcs true [n] with
  | error e =>
      rw [hbuf] at hset
      cases hset
  | ok buf =>
      rw [hbuf] at hset
      cases hset
      rw [encodeArcs_direct _ (.inl rfl), putArcs_eq_ok (Nat.zero_le _), List.nil_append,
        counted_eq (by rw [ulongMax]; simp; omega), hoctets] at hbuf
      have hlow := toNat_low n
      exact ⟨_, by rw [hbuf.1]; rfl, by omega⟩

/-- The arcs of a string, the first of which follows no period. -/
theorem length_oid_of_parse {isRelative : Bool} {str : List Octet} {arcs : List ℕ}
    {x : AsnRelativeOid} (hhead : str.head? ≠ some 0x2E)
    (hparse : parseLoop str.length str [] = .ok arcs) (hset : setArcs isRelative arcs = .ok x) :
    x.oid.length < str.length ∨
      ∃ digit octet, str = [digit] ∧ x.oid = [octet] ∧ octet.toNat < 10 ∧ 0x30 ≤ digit.toNat := by
  cases str with
  | nil =>
      cases hparse
      cases hset
  | cons ch str =>
      have hch : ch ≠ 0x2E := by simpa using hhead
      obtain ⟨hall, hne, hnext⟩ := parseLoop_cons hparse
      rw [if_neg hch] at hall hne hnext
      obtain ⟨rest, rfl, hrest, hlen⟩ := parseLoop_tail (head_drop_takeWhile _) hnext
      have htoken := arcLen_atol hall hne
      have htake := (List.takeWhile_prefix (· != (0x2E : Octet)) (l := ch :: str)).length_le
      have hle : ∀ arc ∈ [] ++ [atol ((ch :: str).takeWhile (· != 0x2E))] ++ rest,
          arc ≤ longMax := by
        simpa using ⟨atol_le _, hrest⟩
      obtain ⟨hoid, htwo, -⟩ := length_oid_le hle hset
      rw [List.length_drop] at hlen
      have htotal : totalLen ([] ++ [atol ((ch :: str).takeWhile (· != 0x2E))] ++ rest) =
          arcLen (atol ((ch :: str).takeWhile (· != 0x2E))) + totalLen rest := rfl
      rw [htotal] at hoid
      rcases htoken with hshort | ⟨hone, harc⟩
      · left
        omega
      · rw [harc] at hoid
        rw [hone] at hlen
        rcases Nat.eq_zero_or_pos rest.length with hzero | hpos
        · obtain rfl : rest = [] := List.length_eq_zero_iff.mp hzero
          change x.oid.length ≤ 1 + 0 at hoid
          rcases Nat.eq_zero_or_pos str.length with hlast | hmore
          · obtain rfl : str = [] := List.length_eq_zero_iff.mp hlast
            rw [List.takeWhile_cons_of_pos (by simpa using hch)] at hall hset htwo
            cases isRelative with
            | false =>
                have htwo : 2 ≤ 1 := htwo rfl
                omega
            | true =>
                obtain ⟨octet, hoctet, hsmall⟩ := oid_single (atol_lt_pow hall) hset
                refine .inr ⟨ch, octet, rfl, hoctet, hsmall, ?_⟩
                have hdigit : isDigit ch = true := by simpa using hall
                exact (by simpa [isDigit] using hdigit : 0x30 ≤ ch.toNat ∧ ch.toNat ≤ 0x39).1
          · left
            rw [List.length_cons]
            omega
        · left
          omega

/-- The dotted string that is parsed is longer than the octets, unless it is one digit. -/
theorem length_oid_lt {isRelative : Bool} {str : List Octet} {x : AsnRelativeOid}
    (h : setString isRelative str = .ok x) :
    x.oid.length < (SJson.cString str).length ∨
      ∃ digit octet, SJson.cString str = [digit] ∧ x.oid = [octet] ∧ octet.toNat < 10 ∧
        0x30 ≤ digit.toNat := by
  rw [setString] at h
  generalize SJson.cString str = str at h ⊢
  split at h
  · cases h
  · next hhead =>
      cases hparse : parseLoop str.length str [] with
      | error e =>
          rw [hparse] at h
          cases h
      | ok arcs =>
          rw [hparse] at h
          dsimp only [bind, Except.bind] at h
          split at h
          · cases h
          · cases hset : setArcs isRelative arcs with
            | error e =>
                rw [hset] at h
                cases h
            | ok y =>
                rw [hset] at h
                cases h
                have hy := length_oid_of_parse (by simpa using hhead) hparse hset
                exact hy

/-- No OBJECT IDENTIFIER and no RELATIVE-OID comes back from its JSON form. -/
theorem not_jsonRoundTrips (z x : AsnRelativeOid) : ¬ JsonRoundTrips z x := by
  rintro ⟨v, y, henc, hdec, heq⟩
  obtain ⟨t, rfl, ht, -⟩ := SJson.Value.ofString_eq_ok henc
  rw [jDec, SJson.Value.isConvertibleToString, if_pos rfl, SJson.Value.asString] at hdec
  change (setString z.isRelative t.octets >>= fun y => pure (y, true)) = _ at hdec
  cases hset : setString z.isRelative t.octets with
  | error e =>
      rw [hset] at hdec
      cases hdec
  | ok y' =>
      rw [hset] at hdec
      cases hdec
      have hprefix : SJson.cString t.octets <+: x.oid := by
        refine (List.takeWhile_prefix _).trans ?_
        rw [ht]
        exact List.take_prefix _ _
      rcases length_oid_lt hset with hlt | ⟨digit, octet, hdigit, hoctet, hsmall, hlarge⟩
      · have hle := hprefix.length_le
        rw [heq] at hlt
        omega
      · rw [hdigit, ← heq, hoctet] at hprefix
        obtain rfl : digit = octet := by simpa using hprefix
        omega

/-- The octets of 2.5.4.3 begin with a letter. -/
theorem not_jsonRoundTrips_commonName :
    ¬ ∀ x : AsnRelativeOid, x.isRelative = false → (∃ arcs, x.arcArray = .ok arcs ∧
      ValidOid arcs) → JsonRoundTrips x x := by
  intro h
  obtain ⟨v, y, henc, hdec, -⟩ := h ⟨false, [0x55, 0x04, 0x03], none⟩ rfl
    ⟨[2, 5, 4, 3], rfl, by decide, by decide⟩
  cases henc
  cases hdec

end AsnRelativeOid

end Esnacc
