import Esnacc.Runtime.Oid

/-!
What the octets of an OBJECT IDENTIFIER say: which arcs are written for an array, and which
array is read from octets that have been written, or from the beginning of them.
-/

namespace Esnacc

open BitString

namespace AsnRelativeOid

/-- The octets that are written for these subidentifiers. -/
def octetsOf (subids : List ℕ) : List Octet := subids.flatMap arcOctets

theorem octetsOf_cons (subid : ℕ) (subids : List ℕ) :
    octetsOf (subid :: subids) = arcOctets subid ++ octetsOf subids := List.flatMap_cons

/-- The number of these octets. -/
def totalLen (subids : List ℕ) : ℕ := (subids.map arcLen).sum

theorem length_octetsOf (subids : List ℕ) : (octetsOf subids).length = totalLen subids := by
  induction subids with
  | nil => rfl
  | cons subid subids ih =>
      rw [octetsOf_cons, List.length_append, ih, length_arcOctets, totalLen, totalLen,
        List.map_cons, List.sum_cons]

theorem arcOctets_ne_nil (n : ℕ) : arcOctets n ≠ [] := by
  intro h
  have hlen := length_arcOctets n
  rw [h] at hlen
  exact (arcLen_pos n).ne hlen

/-! ### Which arcs are written -/

/-- The arcs in front of the one that ends the list. -/
def counted (arcs : List ℕ) : List ℕ := arcs.takeWhile (· != ulongMax)

theorem counted_cons {arc : ℕ} (h : arc ≠ ulongMax) (arcs : List ℕ) :
    counted (arc :: arcs) = arc :: counted arcs := by
  rw [counted, List.takeWhile_cons_of_pos (by simpa using h)]
  rfl

theorem counted_eq {arcs : List ℕ} (h : ∀ arc ∈ arcs, arc ≠ ulongMax) : counted arcs = arcs := by
  rw [counted, List.takeWhile_eq_self_iff]
  simpa using h

theorem length_counted_le (arcs : List ℕ) : (counted arcs).length ≤ arcs.length :=
  (List.takeWhile_prefix _).length_le

theorem leaveArcs_eq_ok {i : ℕ} {buf out : List Octet} :
    leaveArcs i buf = .ok out ↔ out = buf ∧ i < 2 ^ 32 := by
  rw [leaveArcs]
  split
  · next h => rw [Except.ok.injEq, eq_comm, and_iff_left h]
  · next h => exact iff_of_false (by simp) fun hout => h hout.2

theorem putArcs_eq_ok {size i : ℕ} {arcs : List ℕ} {buf out : List Octet}
    (hbuf : buf.length ≤ size) :
    putArcs size i arcs buf = .ok out ↔
      out = buf ++ octetsOf (counted arcs) ∧ out.length ≤ size ∧
        i + (counted arcs).length < 2 ^ 32 := by
  induction arcs generalizing i buf with
  | nil =>
      rw [putArcs, leaveArcs_eq_ok]
      simp only [counted, octetsOf, List.takeWhile_nil, List.flatMap_nil, List.append_nil,
        List.length_nil, Nat.add_zero]
      constructor
      · rintro ⟨rfl, hi⟩
        exact ⟨rfl, hbuf, hi⟩
      · rintro ⟨rfl, -, hi⟩
        exact ⟨rfl, hi⟩
  | cons arc arcs ih =>
      rw [putArcs]
      split
      · next hmax =>
          have hnone : counted (arc :: arcs) = [] := by
            rw [counted, List.takeWhile_cons_of_neg (by simpa using hmax)]
          rw [leaveArcs_eq_ok, hnone, octetsOf, List.flatMap_nil, List.append_nil]
          constructor
          · rintro ⟨rfl, hi⟩
            exact ⟨rfl, hbuf, hi⟩
          · rintro ⟨rfl, -, hi⟩
            exact ⟨rfl, hi⟩
      · next hmax =>
          rw [counted_cons hmax, octetsOf_cons, ← List.append_assoc, List.length_cons,
            show i + ((counted arcs).length + 1) = i + 1 + (counted arcs).length by omega, putArc]
          split
          · next hfit =>
              exact @ih (i + 1) (buf ++ arcOctets arc)
                (by rw [List.length_append, length_arcOctets]; exact hfit)
          · next hfull =>
              constructor
              · intro h
                cases h
              · rintro ⟨rfl, hlen, -⟩
                rw [List.length_append, List.length_append, length_arcOctets] at hlen
                omega

/-- Nothing is munged together in a relative OID, nor in a list that ends at once. -/
theorem encodeArcs_direct {isRelative : Bool} {first : ℕ} (rest : List ℕ)
    (h : isRelative = true ∨ first = ulongMax) :
    encodeArcs isRelative (first :: rest) =
      putArcs (5 * (first :: rest).length % 2 ^ 64) 0 (first :: rest) [] := by
  cases rest with
  | nil => exact if_pos h
  | cons second rest => exact if_pos h

/-- The octets of a list of arcs that is accepted. -/
theorem encodeArcs_cons {first second : ℕ} {rest : List ℕ} {out : List Octet}
    (hfirst : first ≤ 2) (hsecond : second ≠ ulongMax) :
    encodeArcs false (first :: second :: rest) = .ok out ↔
      out = octetsOf ((first * 40 + second) % 2 ^ 64 :: counted rest) ∧
        out.length ≤ 5 * (rest.length + 2) % 2 ^ 64 ∧ 2 + (counted rest).length < 2 ^ 32 := by
  have hmax : ¬ (false = true ∨ first = ulongMax) := by
    rw [ulongMax]
    simp only [Bool.false_eq_true, false_or]
    omega
  rw [encodeArcs, if_neg hmax, if_neg hsecond, if_neg (by omega), List.length_cons, List.length_cons, octetsOf_cons, putArc]
  generalize (first * 40 + second) % 2 ^ 64 = subid
  generalize 5 * (rest.length + 1 + 1) % 2 ^ 64 = size
  rw [List.length_nil, Nat.zero_add]
  split
  · next hfit => exact putArcs_eq_ok (by rwa [List.nil_append, length_arcOctets])
  · next hfull =>
      constructor
      · intro h
        cases h
      · rintro ⟨rfl, hlen, -⟩
        rw [List.length_append, length_arcOctets] at hlen
        omega

/-! ### Reading what was written -/

theorem numArcsLoop_succ {octets : List Octet} (h : octets ≠ []) (fuel : ℕ) :
    numArcsLoop (fuel + 1) octets = numArcsLoop fuel (readArc octets 0).2.1 + 1 := by
  cases octets with
  | nil => exact absurd rfl h
  | cons octet octets => rfl

theorem numArcsLoop_octetsOf {subids : List ℕ} (h : ∀ subid ∈ subids, subid < 2 ^ 64) {fuel : ℕ}
    (hfuel : (octetsOf subids).length ≤ fuel) :
    numArcsLoop fuel (octetsOf subids) = subids.length := by
  induction subids generalizing fuel with
  | nil => cases fuel <;> rfl
  | cons subid subids ih =>
      rw [List.forall_mem_cons] at h
      have hpos := arcLen_pos subid
      rw [octetsOf_cons, List.length_append, length_arcOctets] at hfuel
      obtain ⟨fuel, rfl⟩ := Nat.exists_eq_succ_of_ne_zero (show fuel ≠ 0 by omega)
      rw [octetsOf_cons, numArcsLoop_succ (by simp [arcOctets_ne_nil]), readArc_arcOctets h.1,
        ih h.2 (by omega), List.length_cons]

theorem oidArrayLoop_succ {octets : List Octet} (h : octets ≠ []) {iArc : ℕ} {oidArray : List ℕ}
    (hi : iArc < oidArray.length) (isRelative : Bool) (fuel : ℕ) :
    oidArrayLoop isRelative (fuel + 1) octets iArc oidArray =
      let r := readArc octets (oidArray.getD iArc 0)
      if r.2.2 = false then .error (oidException "Invalid encoded OID")
      else if isRelative ∨ iArc ≠ 0 then
        oidArrayLoop isRelative fuel r.2.1 (iArc + 1) (oidArray.set iArc r.1)
      else
        unmunge (oidArray.set iArc r.1) >>= oidArrayLoop isRelative fuel r.2.1 (iArc + 2) := by
  cases octets with
  | nil => exact absurd rfl h
  | cons octet octets => exact if_pos hi

/-- The arcs behind the first ones are written to the zeros of the array. -/
theorem oidArrayLoop_octetsOf {subids : List ℕ} (h : ∀ subid ∈ subids, subid < 2 ^ 64)
    {fuel : ℕ} (hfuel : (octetsOf subids).length ≤ fuel) {front : List ℕ} (hfront : front ≠ []) :
    oidArrayLoop false fuel (octetsOf subids) front.length
      (front ++ List.replicate subids.length 0) = .ok (front ++ subids) := by
  induction subids generalizing fuel front with
  | nil => cases fuel <;> rfl
  | cons subid subids ih =>
      rw [List.forall_mem_cons] at h
      have hpos := arcLen_pos subid
      rw [octetsOf_cons, List.length_append, length_arcOctets] at hfuel
      obtain ⟨fuel, rfl⟩ := Nat.exists_eq_succ_of_ne_zero (show fuel ≠ 0 by omega)
      have hne : front.length ≠ 0 := fun hlen => hfront (List.length_eq_zero_iff.mp hlen)
      have hget : (front ++ List.replicate (subid :: subids).length 0).getD front.length 0 = 0 := by
        simp [List.replicate_succ]
      have hset : (front ++ List.replicate (subid :: subids).length 0).set front.length subid =
          (front ++ [subid]) ++ List.replicate subids.length 0 := by
        simp [List.replicate_succ]
      have hnext := @ih h.2 fuel (by omega) (front ++ [subid]) (by simp)
      rw [octetsOf_cons, oidArrayLoop_succ (by simp [arcOctets_ne_nil]) (by simp), hget,
        readArc_arcOctets h.1]
      dsimp only
      rw [if_neg (by decide), if_pos (.inr hne), hset]
      rw [List.length_append, List.length_singleton] at hnext
      rw [hnext, List.append_assoc]
      rfl

/-- The array that is read from the octets of subidentifiers. -/
theorem arcArray_octetsOf {subid : ℕ} {subids : List ℕ}
    (h : ∀ n ∈ subid :: subids, n < 2 ^ 64) (oidString : Option (List Octet)) :
    arcArray ⟨false, octetsOf (subid :: subids), oidString⟩ =
      .ok (min (subid / 40) 2 :: (subid - min (subid / 40) 2 * 40) :: subids) := by
  have hnum : numArcs ⟨false, octetsOf (subid :: subids), oidString⟩ = subids.length + 2 := by
    rw [numArcs]
    dsimp only
    rw [numArcsLoop_octetsOf h le_rfl, if_pos (by simp), List.length_cons]
  have hcons := List.forall_mem_cons.mp h
  have hpos := arcLen_pos subid
  obtain ⟨fuel, hfuel⟩ := Nat.exists_eq_succ_of_ne_zero
    (show (octetsOf (subid :: subids)).length ≠ 0 by
      rw [octetsOf_cons, List.length_append, length_arcOctets]
      omega)
  have hlen : (octetsOf subids).length ≤ fuel := by
    rw [octetsOf_cons, List.length_append, length_arcOctets] at hfuel
    omega
  have hnext := oidArrayLoop_octetsOf hcons.2 hlen
    (show [min (subid / 40) 2, subid - min (subid / 40) 2 * 40] ≠ [] by simp)
  rw [arcArray, hnum, getOidArray]
  dsimp only
  rw [hfuel, oidArrayLoop_succ (by simp [octetsOf_cons, arcOctets_ne_nil]) (by simp),
    octetsOf_cons, List.replicate_succ, List.getD_cons_zero, readArc_arcOctets hcons.1]
  dsimp only
  rw [if_neg (by decide), if_neg (by decide), List.replicate_succ]
  exact hnext

/-! ### The beginning of what was written -/

/-- The octets that end an arc. -/
def ends (octets : List Octet) : ℕ := octets.countP fun octet => decide (octet.toNat < 128)

theorem ends_readArc {octets : List Octet} {arc : ℕ} (h : (readArc octets arc).2.2 = true) :
    ends octets = ends (readArc octets arc).2.1 + 1 := by
  induction octets generalizing arc with
  | nil => cases h
  | cons octet octets ih =>
      rw [readArc] at h ⊢
      split
      · next hlast => rw [ends, List.countP_cons_of_pos (by simpa using hlast)]; rfl
      · next hmore =>
          rw [if_neg hmore] at h
          rw [ends, List.countP_cons_of_neg (by simpa using hmore)]
          exact ih h

/-- What follows an arc does not depend on its value. -/
theorem readArc_rest (octets : List Octet) (arc arc' : ℕ) :
    (readArc octets arc).2 = (readArc octets arc').2 := by
  induction octets generalizing arc arc' with
  | nil => rfl
  | cons octet octets ih =>
      rw [readArc, readArc]
      split
      · rfl
      · exact ih _ _

/-- If every arc ends, the arcs are counted by the octets that end them. -/
theorem numArcsLoop_eq_ends {isRelative : Bool} {fuel : ℕ} {octets : List Octet} {iArc : ℕ}
    {oidArray out : List ℕ} (h : oidArrayLoop isRelative fuel octets iArc oidArray = .ok out) :
    numArcsLoop fuel octets = ends octets ∧ out.length = oidArray.length := by
  induction fuel generalizing octets iArc oidArray with
  | zero =>
      cases octets with
      | nil => cases h; exact ⟨rfl, rfl⟩
      | cons octet octets => cases h
  | succ fuel ih =>
      cases octets with
      | nil => cases h; exact ⟨rfl, rfl⟩
      | cons octet octets =>
          simp only [oidArrayLoop] at h
          split at h
          · next hi =>
              split at h
              · cases h
              · next hend =>
                  rw [Bool.not_eq_false] at hend
                  have hrest := readArc_rest (octet :: octets) 0 (oidArray.getD iArc 0)
                  have hends := ends_readArc hend
                  rw [numArcsLoop_succ (List.cons_ne_nil _ _), hrest, hends]
                  split at h
                  · obtain ⟨hnum, hlen⟩ := ih h
                    rw [hnum, hlen, List.length_set]
                    exact ⟨rfl, rfl⟩
                  · cases hset : oidArray.set iArc (readArc (octet :: octets) _).1 with
                    | nil =>
                        rw [hset] at h
                        cases h
                    | cons arc rest =>
                        cases rest with
                        | nil =>
                            rw [hset] at h
                            cases h
                        | cons arc' rest =>
                            have hlength := congrArg List.length hset
                            rw [List.length_set] at hlength
                            rw [hset] at h
                            obtain ⟨hnum, hlen⟩ := ih h
                            rw [hnum, hlen, hlength]
                            exact ⟨rfl, rfl⟩
          · cases h

theorem ends_append (octets octets' : List Octet) :
    ends (octets ++ octets') = ends octets + ends octets' := List.countP_append

theorem ends_writeArc (j n : ℕ) : ends (writeArc j n false []) = 0 := by
  induction j generalizing n with
  | zero => rfl
  | succ j ih =>
      have hmore := toNat_more n
      rw [writeArc, if_neg Bool.false_ne_true, writeArc_append, ends_append, ih, ends,
        List.countP_cons_of_neg (by rw [hmore]; simp)]
      rfl

/-- An arc ends with its last octet, and only there. -/
theorem arcOctets_eq (n : ℕ) :
    ∃ more last, arcOctets n = more ++ [last] ∧ ends more = 0 ∧ last.toNat < 128 := by
  obtain ⟨j, hj⟩ := Nat.exists_eq_add_of_lt (arcLen_pos n)
  have hlow := toNat_low n
  refine ⟨writeArc j (n / 128) false [], BitVec.ofNat 8 (n % 128), ?_, ends_writeArc _ _, by omega⟩
  rw [arcOctets, hj, Nat.zero_add, writeArc, if_pos rfl, writeArc_append]

theorem ends_last {last : Octet} (h : last.toNat < 128) : ends [last] = 1 := by
  rw [ends, List.countP_cons_of_pos (by simpa using h)]
  rfl

theorem ends_octetsOf (subids : List ℕ) : ends (octetsOf subids) = subids.length := by
  induction subids with
  | nil => rfl
  | cons subid subids ih =>
      obtain ⟨more, last, heq, hmore, hlast⟩ := arcOctets_eq subid
      rw [octetsOf_cons, ends_append, ih, heq, ends_append, hmore, ends_last hlast,
        List.length_cons]
      omega

/-- Whatever is missing at the end, an arc ends there. -/
theorem ends_drop_pos {subids : List ℕ} {m : ℕ} (h : m < totalLen subids) :
    0 < ends ((octetsOf subids).drop m) := by
  induction subids generalizing m with
  | nil => exact absurd h (Nat.not_lt_zero m)
  | cons subid subids ih =>
      rw [totalLen, List.map_cons, List.sum_cons] at h
      rw [octetsOf_cons, List.drop_append, ends_append]
      by_cases hm : m < arcLen subid
      · obtain ⟨more, last, heq, -, hlast⟩ := arcOctets_eq subid
        have hlen := length_arcOctets subid
        rw [heq, List.length_append, List.length_singleton] at hlen
        rw [heq, List.drop_append_of_le_length (by omega), ends_append, ends_last hlast]
        omega
      · have hrest := @ih (m - arcLen subid) (by rw [totalLen]; omega)
        rw [length_arcOctets]
        omega

/-- From octets that have been cut, fewer arcs are read. -/
theorem length_arcArray_lt {subids : List ℕ} {m : ℕ} (h : m < totalLen subids)
    {oidString : Option (List Octet)} {arcs : List ℕ}
    (harcs : arcArray ⟨false, (octetsOf subids).take m, oidString⟩ = .ok arcs) :
    arcs.length < subids.length + 1 := by
  have hdrop := ends_drop_pos h
  have hends := ends_octetsOf subids
  rw [← List.take_append_drop m (octetsOf subids), ends_append] at hends
  rw [arcArray, getOidArray] at harcs
  obtain ⟨hnum, hlen⟩ := numArcsLoop_eq_ends harcs
  rw [List.length_replicate, numArcs] at hlen
  dsimp only at hlen hnum
  rw [hnum] at hlen
  split at hlen <;> omega

end AsnRelativeOid

end Esnacc
