import Esnacc.Runtime.OidArcs

/-!
The dotted string of an OBJECT IDENTIFIER: what is printed for arcs, what is parsed from it,
and when the conversions between array, octets and string agree. The JSON form is made from
the octets and parsed as a dotted string.
-/

namespace Esnacc

open BitString

namespace AsnRelativeOid

open SJson.Value (decimal)

/-! ### Decimal numbers -/

theorem mem_decimal {n : ℕ} {ch : Octet} (h : ch ∈ decimal n) :
    0x30 ≤ ch.toNat ∧ ch.toNat ≤ 0x39 := by
  rw [decimal] at h
  split at h
  · rw [List.mem_singleton.mp h]
    decide
  · obtain ⟨d, hd, rfl⟩ := List.mem_map.mp h
    have hlt : d < 10 := Nat.digits_lt_base (by decide) (List.mem_reverse.mp hd)
    rw [BitVec.toNat_ofNat]
    omega

theorem decimal_ne_nil (n : ℕ) : decimal n ≠ [] := by
  rw [decimal]
  split
  · exact List.cons_ne_nil _ _
  · next hne =>
      intro h
      rw [List.map_eq_nil_iff, List.reverse_eq_nil_iff, Nat.digits_eq_nil_iff_eq_zero] at h
      exact hne h

theorem foldl_decimal (n : ℕ) :
    (decimal n).foldl (fun n digit => 10 * n + (digit.toNat - 0x30)) 0 = n := by
  rw [decimal]
  split
  · next hzero => exact hzero.symm
  · have hdigits : ∀ d ∈ Nat.digits 10 n, d < 10 := fun d =>
      Nat.digits_lt_base (by decide)
    conv_rhs => rw [← Nat.ofDigits_digits 10 n]
    generalize Nat.digits 10 n = ds at hdigits
    rw [List.foldl_map, List.foldl_reverse]
    induction ds with
    | nil => rfl
    | cons d ds ih =>
        rw [List.forall_mem_cons] at hdigits
        rw [List.foldr_cons, ih hdigits.2, Nat.ofDigits_cons, BitVec.toNat_ofNat]
        omega

theorem atol_decimal (n : ℕ) : atol (decimal n) = min n longMax := by
  rw [atol, foldl_decimal]

/-! ### The string of arcs -/

/-- The arcs in decimal, each but the first behind a period. -/
def dottedText : List ℕ → List Octet
  | [] => []
  | arc :: arcs => decimal arc ++ arcs.flatMap fun arc => 0x2E :: decimal arc

theorem dottedLoop_succ {octets : List Octet} (h : octets ≠ []) (isRelative isFirst : Bool)
    (fuel : ℕ) (tempBuf : List Octet) :
    dottedLoop isRelative (fuel + 1) octets isFirst tempBuf =
      dottedLoop isRelative fuel (readArc octets 0).2.1 false
        (tempBuf ++ arcText isRelative isFirst (readArc octets 0).1) := by
  cases octets with
  | nil => exact absurd rfl h
  | cons octet octets => rfl

theorem dottedLoop_octetsOf {subids : List ℕ} (h : ∀ subid ∈ subids, subid < 2 ^ 64) {fuel : ℕ}
    (hfuel : (octetsOf subids).length ≤ fuel) (tempBuf : List Octet) :
    dottedLoop false fuel (octetsOf subids) false tempBuf =
      tempBuf ++ subids.flatMap fun arc => 0x2E :: decimal arc := by
  induction subids generalizing fuel tempBuf with
  | nil => cases fuel <;> exact (List.append_nil tempBuf).symm
  | cons subid subids ih =>
      rw [List.forall_mem_cons] at h
      have hpos := arcLen_pos subid
      rw [octetsOf_cons, List.length_append, length_arcOctets] at hfuel
      obtain ⟨fuel, rfl⟩ := Nat.exists_eq_succ_of_ne_zero (show fuel ≠ 0 by omega)
      rw [octetsOf_cons, dottedLoop_succ (by simp [arcOctets_ne_nil]), readArc_arcOctets h.1,
        ih h.2 (by omega), List.flatMap_cons, List.append_assoc]
      rfl

theorem createDottedOidStr_octetsOf {first second : ℕ} {rest : List ℕ}
    (h : ∀ n ∈ (first * 40 + second) :: rest, n < 2 ^ 64) (hfirst : first ≤ 2)
    (hsecond : first < 2 → second < 40) (oidString : Option (List Octet)) :
    createDottedOidStr ⟨false, octetsOf ((first * 40 + second) :: rest), oidString⟩ =
      dottedText (first :: second :: rest) := by
  have hcons := List.forall_mem_cons.mp h
  have hpos := arcLen_pos (first * 40 + second)
  have hmin : min ((first * 40 + second) / 40) 2 = first := by omega
  have hsub : first * 40 + second - first * 40 = second := by omega
  obtain ⟨fuel, hfuel⟩ := Nat.exists_eq_succ_of_ne_zero
    (show (octetsOf ((first * 40 + second) :: rest)).length ≠ 0 by
      rw [octetsOf_cons, List.length_append, length_arcOctets]
      omega)
  have hlen : (octetsOf rest).length ≤ fuel := by
    rw [octetsOf_cons, List.length_append, length_arcOctets] at hfuel
    omega
  rw [createDottedOidStr]
  dsimp only
  rw [hfuel, dottedLoop_succ (by simp [octetsOf_cons, arcOctets_ne_nil]), octetsOf_cons,
    readArc_arcOctets hcons.1]
  dsimp only
  rw [dottedLoop_octetsOf hcons.2 hlen, arcText, if_pos rfl, if_neg Bool.false_ne_true, hmin, hsub,
    dottedText, List.flatMap_cons, List.nil_append, List.append_assoc]

/-! ### Parsing -/

/-- One pass of the loop: `tail` begins with a period or is empty. -/
theorem parseLoop_token {fuel : ℕ} {str tail : List Octet} {n : ℕ}
    (hstr : str = decimal n ++ tail ∨ str = 0x2E :: (decimal n ++ tail))
    (htail : tail.takeWhile (· != 0x2E) = []) (intArray : List ℕ) :
    parseLoop (fuel + 1) str intArray =
      parseLoop fuel tail (intArray ++ [min n longMax]) := by
  have hdigit : ∀ ch ∈ decimal n, ch ≠ 0x2E := by
    rintro ch hch rfl
    exact absurd (mem_decimal hch).1 (by decide)
  have htoken : (decimal n ++ tail).takeWhile (· != 0x2E) = decimal n := by
    rw [List.takeWhile_append_of_pos (by simpa using hdigit), htail, List.append_nil]
  have hall : (decimal n).all isDigit = true := by
    rw [List.all_eq_true]
    intro ch hch
    simpa [isDigit] using mem_decimal hch
  have hempty : (decimal n).isEmpty = false := by
    rw [List.isEmpty_eq_false_iff]
    exact decimal_ne_nil n
  have hpass : ∀ ch rest, (if ch = 0x2E then rest else ch :: rest) = decimal n ++ tail →
      parseLoop (fuel + 1) (ch :: rest) intArray =
        parseLoop fuel tail (intArray ++ [min n longMax]) := by
    intro ch rest hint
    simp only [parseLoop, hint, htoken, hall, hempty, Bool.not_true, Bool.false_eq_true, if_false,
      atol_decimal, List.drop_left]
  rcases hstr with rfl | rfl
  · obtain ⟨ch, ds, hds⟩ := List.exists_cons_of_ne_nil (decimal_ne_nil n)
    have hch : ch ≠ 0x2E := hdigit ch (by rw [hds]; exact List.mem_cons_self)
    rw [hds] at hpass ⊢
    exact hpass ch (ds ++ tail) (if_neg hch)
  · exact hpass 0x2E (decimal n ++ tail) (if_pos rfl)

theorem takeWhile_dotted (arcs : List ℕ) :
    (arcs.flatMap fun arc => 0x2E :: decimal arc).takeWhile (· != (0x2E : Octet)) = [] := by
  cases arcs with
  | nil => rfl
  | cons arc arcs => rfl

theorem parseLoop_dotted {arcs : List ℕ} {fuel : ℕ}
    (hfuel : (arcs.flatMap fun arc => (0x2E : Octet) :: decimal arc).length ≤ fuel)
    (intArray : List ℕ) :
    parseLoop fuel (arcs.flatMap fun arc => 0x2E :: decimal arc) intArray =
      .ok (intArray ++ arcs.map (min · longMax)) := by
  induction arcs generalizing fuel intArray with
  | nil =>
      rw [List.map_nil, List.append_nil]
      cases fuel <;> rfl
  | cons arc arcs ih =>
      rw [List.flatMap_cons, List.length_append, List.length_cons] at hfuel
      obtain ⟨fuel, rfl⟩ := Nat.exists_eq_succ_of_ne_zero (show fuel ≠ 0 by omega)
      rw [List.flatMap_cons, List.cons_append, parseLoop_token (.inr rfl) (takeWhile_dotted arcs),
        ih (by omega), List.append_assoc]
      rfl

theorem mem_dottedText {arcs : List ℕ} {ch : Octet} (h : ch ∈ dottedText arcs) : ch ≠ 0 := by
  have hdecimal : ∀ n, ch ∈ decimal n → ch ≠ 0 := by
    rintro n hn rfl
    exact absurd (mem_decimal hn).1 (by decide)
  cases arcs with
  | nil => exact absurd h List.not_mem_nil
  | cons arc arcs =>
      rcases List.mem_append.mp h with h | h
      · exact hdecimal arc h
      · obtain ⟨n, -, hn⟩ := List.mem_flatMap.mp h
        rcases List.mem_cons.mp hn with rfl | hn
        · decide
        · exact hdecimal n hn

/-- The arcs that are set from the dotted string of arcs. -/
theorem setString_dottedText (isRelative : Bool) {arcs : List ℕ} (hne : arcs ≠ []) :
    setString isRelative (dottedText arcs) =
      if 2 ^ 32 ≤ arcs.length then .error (.undefinedBehaviour "the loop does not end")
      else (setArcs isRelative (arcs.map (min · longMax))).map fun x =>
        { x with oidString := some (dottedText arcs) } := by
  have hcut : SJson.cString (dottedText arcs) = dottedText arcs :=
    SJson.Value.cString_eq fun ch hch => mem_dottedText hch
  cases arcs with
  | nil => exact absurd rfl hne
  | cons arc arcs =>
      have hhead : ¬ (dottedText (arc :: arcs)).head? = some 0x2E := by
        obtain ⟨ch, ds, hds⟩ := List.exists_cons_of_ne_nil (decimal_ne_nil arc)
        rw [dottedText, hds]
        intro hdot
        obtain rfl : ch = 0x2E := Option.some.inj hdot
        have hmem : (0x2E : Octet) ∈ decimal arc := by
          rw [hds]
          exact List.mem_cons_self
        exact absurd (mem_decimal hmem).1 (by decide)
      have hlen : 0 < (decimal arc).length := List.length_pos_of_ne_nil (decimal_ne_nil arc)
      have htext : (dottedText (arc :: arcs)).length = (decimal arc).length +
          (arcs.flatMap fun arc => (0x2E : Octet) :: decimal arc).length := List.length_append
      obtain ⟨fuel, hfuel⟩ := Nat.exists_eq_succ_of_ne_zero
        (show (dottedText (arc :: arcs)).length ≠ 0 by omega)
      have hparse : parseLoop (dottedText (arc :: arcs)).length (dottedText (arc :: arcs)) [] =
          .ok ((arc :: arcs).map (min · longMax)) := by
        rw [hfuel, dottedText, parseLoop_token (.inl rfl) (takeWhile_dotted arcs),
          parseLoop_dotted (by omega)]
        rfl
      rw [setString, hcut, if_neg hhead, hparse]
      dsimp only [bind, Except.bind]
      rw [List.length_map]
      split
      · rfl
      · cases setArcs isRelative ((arc :: arcs).map (min · longMax)) <;> rfl

/-! ### When the conversions agree -/

/-- At least two arcs, the first one 0, 1 or 2, and the second one below 40 unless the first
is 2. -/
def ValidOid : List ℕ → Prop
  | first :: second :: _ => first ≤ 2 ∧ (first < 2 → second < 40)
  | _ => False

/-- The first two arcs share a subidentifier. -/
def subidsOf : List ℕ → List ℕ
  | first :: second :: rest => (first * 40 + second) :: rest
  | arcs => arcs

/-- The array, the octets and the dotted string of a valid list of arcs say the same, and
every other list is refused. -/
def Agrees (arcs : List ℕ) : Prop :=
  (ValidOid arcs → ∃ x, setArcs false arcs = .ok x ∧ x.arcArray = .ok arcs ∧
    x.toCString = dottedText arcs ∧
    ∃ y, setString false x.toCString = .ok y ∧ y.oid = x.oid ∧ y.arcArray = .ok arcs) ∧
  (¬ ValidOid arcs → ∃ e, setArcs false arcs = .error (.thrown e))

/-- The arcs can be written and parsed: none is so large that it is taken for the end of the
list or for the largest `long`, and the buffer and the counters hold their octets. -/
def Encodable (arcs : List ℕ) : Prop :=
  (∀ arc ∈ arcs, arc < 2 ^ 63) ∧ totalLen (subidsOf arcs) ≤ 5 * arcs.length ∧
    totalLen (subidsOf arcs) < 2 ^ 32 ∧ arcs.length < 2 ^ 32

theorem setArcs_eq_ok {first second : ℕ} {rest : List ℕ} {x : AsnRelativeOid}
    (hfirst : first ≤ 2) (hsecond : second ≠ ulongMax) :
    setArcs false (first :: second :: rest) = .ok x ↔
      ∃ subids, subids = (first * 40 + second) % 2 ^ 64 :: counted rest ∧
        x = ⟨false, (octetsOf subids).take (totalLen subids % 2 ^ 32), none⟩ ∧
        totalLen subids ≤ 5 * (rest.length + 2) % 2 ^ 64 ∧
        2 + (counted rest).length < 2 ^ 32 := by
  rw [setArcs]
  constructor
  · intro h
    cases hbuf : encodeArcs false (first :: second :: rest) with
    | error e =>
        rw [hbuf] at h
        cases h
    | ok buf =>
        rw [hbuf] at h
        cases h
        obtain ⟨rfl, hlen, hcount⟩ := (encodeArcs_cons hfirst hsecond).mp hbuf
        rw [length_octetsOf] at hlen
        refine ⟨_, rfl, ?_, hlen, hcount⟩
        rw [← length_octetsOf]
  · rintro ⟨subids, hsubids, rfl, hlen, hcount⟩
    rw [← length_octetsOf] at hlen
    rw [(encodeArcs_cons hfirst hsecond).mpr ⟨congrArg octetsOf hsubids, hlen, hcount⟩,
      ← length_octetsOf]
    rfl

/-- What is read back from the octets of these arcs is the same list only if nothing has been
lost: no arc ends the list, the first two fit into one, and the octets are not cut. -/
theorem of_arcArray {first second : ℕ} {rest : List ℕ} {x : AsnRelativeOid}
    (hfirst : first ≤ 2) (hbound : ∀ arc ∈ rest, arc < 2 ^ 64) (hsecond : second < 2 ^ 64)
    (hset : setArcs false (first :: second :: rest) = .ok x) {arcs : List ℕ}
    (harcs : x.arcArray = .ok arcs) (hlength : arcs.length = rest.length + 2) :
    second ≠ ulongMax ∧ counted rest = rest ∧
      x = ⟨false, octetsOf ((first * 40 + second) % 2 ^ 64 :: rest), none⟩ ∧
      totalLen ((first * 40 + second) % 2 ^ 64 :: rest) < 2 ^ 32 ∧
      totalLen ((first * 40 + second) % 2 ^ 64 :: rest) ≤ 5 * (rest.length + 2) ∧
      rest.length + 2 < 2 ^ 32 ∧
      arcs = min ((first * 40 + second) % 2 ^ 64 / 40) 2 ::
        ((first * 40 + second) % 2 ^ 64 -
          min ((first * 40 + second) % 2 ^ 64 / 40) 2 * 40) :: rest := by
  have hmax : second ≠ ulongMax := by
    rintro rfl
    rw [setArcs, encodeArcs, if_neg (by rw [ulongMax]; simp; omega), if_pos rfl] at hset
    cases hset
  obtain ⟨subids, hsubids, rfl, hlen, hcount⟩ := (setArcs_eq_ok hfirst hmax).mp hset
  have hcounted := length_counted_le rest
  have hnotcut : ¬ totalLen subids % 2 ^ 32 < totalLen subids := by
    intro hcut
    have hlt := length_arcArray_lt hcut harcs
    rw [hsubids, List.length_cons] at hlt
    omega
  have hmod := Nat.mod_le (totalLen subids) (2 ^ 32)
  have heq : totalLen subids % 2 ^ 32 = totalLen subids := by omega
  have hsmall : totalLen subids < 2 ^ 32 := by omega
  rw [heq, ← length_octetsOf, List.take_length, hsubids] at harcs ⊢
  have hsubid : (first * 40 + second) % 2 ^ 64 < 2 ^ 64 := Nat.mod_lt _ (by decide)
  have hbounds : ∀ n ∈ (first * 40 + second) % 2 ^ 64 :: counted rest, n < 2 ^ 64 := by
    rw [List.forall_mem_cons]
    exact ⟨hsubid, fun n hn => hbound n ((List.takeWhile_prefix _).subset hn)⟩
  rw [arcArray_octetsOf hbounds] at harcs
  cases harcs
  have hrest : counted rest = rest := by
    refine (List.takeWhile_prefix _).eq_of_length ?_
    exact (by simpa using hlength : (counted rest).length = rest.length)
  rw [hsubids, hrest] at hlen hsmall
  rw [hrest] at hcount ⊢
  exact ⟨hmax, rfl, rfl, hsmall, hlen.trans (Nat.mod_le _ _), by omega, rfl⟩

/-- The octets of a list of arcs that is valid and can be encoded. -/
theorem setArcs_encodable {first second : ℕ} {rest : List ℕ}
    (hvalid : ValidOid (first :: second :: rest)) (h : Encodable (first :: second :: rest)) :
    setArcs false (first :: second :: rest) =
      .ok ⟨false, octetsOf ((first * 40 + second) :: rest), none⟩ := by
  obtain ⟨hbound, hsize, htotal, hlength⟩ := h
  rw [subidsOf] at hsize htotal
  rw [List.length_cons, List.length_cons] at hsize hlength
  have hsecond : second < 2 ^ 63 := hbound second (by simp)
  have hrest : counted rest = rest := by
    refine counted_eq fun arc harc => ?_
    have harc : arc < 2 ^ 63 := hbound arc (by simp [harc])
    rw [ulongMax]
    omega
  have hfirst := hvalid.1
  have hmod : (first * 40 + second) % 2 ^ 64 = first * 40 + second :=
    Nat.mod_eq_of_lt (by omega)
  have htaken : (octetsOf ((first * 40 + second) :: rest)).take
      (totalLen ((first * 40 + second) :: rest) % 2 ^ 32) =
        octetsOf ((first * 40 + second) :: rest) := by
    rw [Nat.mod_eq_of_lt htotal, ← length_octetsOf, List.take_length]
  refine (setArcs_eq_ok hfirst (by rw [ulongMax]; omega)).mpr
    ⟨(first * 40 + second) :: rest, ?_, ?_, ?_, ?_⟩
  · rw [hmod, hrest]
  · rw [htaken]
  · rw [Nat.mod_eq_of_lt (by omega)]
    omega
  · rw [hrest]
    omega

theorem agrees_encodable {arcs : List ℕ} (hvalid : ValidOid arcs) (h : Encodable arcs) :
    Agrees arcs := by
  refine ⟨fun _ => ?_, fun hnot => absurd hvalid hnot⟩
  match arcs, hvalid with
  | first :: second :: rest, hvalid =>
      obtain ⟨hfirst, hsecond⟩ := hvalid
      have hset := setArcs_encodable ⟨hfirst, hsecond⟩ h
      obtain ⟨hbound, -, -, hlength⟩ := h
      have hsmall : second < 2 ^ 63 := hbound second (by simp)
      have hbounds : ∀ n ∈ (first * 40 + second) :: rest, n < 2 ^ 64 := by
        rw [List.forall_mem_cons]
        refine ⟨by omega, fun n hn => ?_⟩
        have hn : n < 2 ^ 63 := hbound n (by simp [hn])
        omega
      have hmin : min ((first * 40 + second) / 40) 2 = first := by omega
      have hsub : first * 40 + second - first * 40 = second := by omega
      have harcs (oidString : Option (List Octet)) :
          arcArray ⟨false, octetsOf ((first * 40 + second) :: rest), oidString⟩ =
            .ok (first :: second :: rest) := by
        rw [arcArray_octetsOf hbounds, hmin, hsub]
      have hlong : (first :: second :: rest).map (min · longMax) = first :: second :: rest := by
        refine (List.map_congr_left fun n hn => ?_).trans (List.map_id _)
        have hn := hbound n hn
        rw [longMax, id]
        omega
      refine ⟨_, hset, harcs none,
        createDottedOidStr_octetsOf hbounds hfirst hsecond none, ?_⟩
      refine ⟨⟨false, octetsOf ((first * 40 + second) :: rest),
        some (dottedText (first :: second :: rest))⟩, ?_, rfl, harcs _⟩
      rw [show toCString ⟨false, octetsOf ((first * 40 + second) :: rest), none⟩ = _ from
          createDottedOidStr_octetsOf hbounds hfirst hsecond none,
        setString_dottedText false (List.cons_ne_nil _ _), if_neg (Nat.not_le.mpr hlength), hlong,
        hset]
      rfl

/-- Conversions that agree have lost nothing. -/
theorem encodable_of_agrees {arcs : List ℕ} (hbound : ∀ arc ∈ arcs, arc < 2 ^ 64)
    (hvalid : ValidOid arcs) (h : Agrees arcs) : Encodable arcs := by
  obtain ⟨x, hset, harcs, htext, y, hy, -, hyarcs⟩ := h.1 hvalid
  match arcs, hvalid with
  | first :: second :: rest, hvalid =>
      obtain ⟨hfirst, hsecond⟩ := hvalid
      rw [List.forall_mem_cons, List.forall_mem_cons] at hbound
      obtain ⟨hmax, -, rfl, htotal, hsize, hlength, heq⟩ :=
        of_arcArray hfirst hbound.2.2 hbound.2.1 hset harcs rfl
      rw [List.cons.injEq, List.cons.injEq] at heq
      -- a sum that has wrapped around is too small for a first arc of 2
      have hmod : (first * 40 + second) % 2 ^ 64 = first * 40 + second := by
        have hwrap := Nat.mod_lt (first * 40 + second) (show 0 < 2 ^ 64 by decide)
        omega
      rw [hmod] at htotal hsize
      refine ⟨?_, by rw [subidsOf]; exact hsize, by rw [subidsOf]; exact htotal, hlength⟩
      -- the string is parsed to the smaller of each arc and the largest `long`
      rw [htext, setString_dottedText false (List.cons_ne_nil _ _)] at hy
      split at hy
      · cases hy
      · cases hset' : setArcs false ((first :: second :: rest).map (min · longMax)) with
        | error e =>
            rw [hset'] at hy
            cases hy
        | ok z =>
            rw [hset'] at hy
            cases hy
            have hfirst' : min first longMax = first := by
              rw [longMax]
              omega
            rw [List.map_cons, List.map_cons, hfirst'] at hset'
            have hrest' : ∀ arc ∈ rest.map (min · longMax), arc < 2 ^ 64 := by
              intro arc harc
              obtain ⟨n, -, rfl⟩ := List.mem_map.mp harc
              exact (min_le_right n longMax).trans_lt (by decide)
            have hsecond' : min second longMax < 2 ^ 64 :=
              (min_le_right _ _).trans_lt (by decide)
            have hzarcs : z.arcArray = .ok (first :: second :: rest) := hyarcs
            obtain ⟨-, -, -, -, -, -, heq'⟩ :=
              of_arcArray hfirst hrest' hsecond' hset' hzarcs (by simp)
            rw [List.cons.injEq, List.cons.injEq] at heq'
            have hle (n : ℕ) : min n longMax < 2 ^ 63 := (min_le_right _ _).trans_lt (by decide)
            have hle' := hle second
            rw [List.forall_mem_cons, List.forall_mem_cons]
            refine ⟨by omega, ?_, ?_⟩
            · have hmod' : (first * 40 + min second longMax) % 2 ^ 64 =
                  first * 40 + min second longMax := Nat.mod_eq_of_lt (by omega)
              rw [hmod'] at heq'
              omega
            · intro n hn
              rw [heq'.2.2] at hn
              obtain ⟨k, -, rfl⟩ := List.mem_map.mp hn
              exact hle k

/-- Writing arcs to the buffer raises no exception. -/
theorem putArcs_ne_thrown (size i : ℕ) (arcs : List ℕ) (buf : List Octet) (e : SnaccException) :
    putArcs size i arcs buf ≠ .error (.thrown e) := by
  induction arcs generalizing i buf with
  | nil =>
      rw [putArcs, leaveArcs]
      split <;> simp
  | cons arc arcs ih =>
      rw [putArcs, leaveArcs, putArc]
      split
      · split <;> simp
      · split
        · exact ih _ _
        · simp [bind, Except.bind]

theorem setArcs_eq_thrown {arcs : List ℕ} {e : SnaccException} :
    setArcs false arcs = .error (.thrown e) ↔ encodeArcs false arcs = .error (.thrown e) := by
  rw [setArcs]
  cases encodeArcs false arcs with
  | error e => simp [Except.map]
  | ok buf => simp [Except.map]

/-- A list that is not valid is refused unless it begins with the mark of its end, or has a
second arc that is too large for a first one of 0 or 1. -/
theorem refused_iff {arcs : List ℕ} (hvalid : ¬ ValidOid arcs) :
    (∃ e, setArcs false arcs = .error (.thrown e)) ↔
      arcs.head? ≠ some ulongMax ∧
        ∀ first second rest, arcs = first :: second :: rest → first < 2 → second = ulongMax := by
  simp only [setArcs_eq_thrown]
  match arcs, hvalid with
  | [], _ =>
      refine iff_of_true ⟨_, rfl⟩ ⟨by simp, fun first second rest h => by cases h⟩
  | [first], _ =>
      by_cases hmax : first = ulongMax
      · refine iff_of_false ?_ (by simp [hmax])
        rintro ⟨e, he⟩
        rw [encodeArcs_direct _ (.inr hmax)] at he
        exact putArcs_ne_thrown _ _ _ _ _ he
      · refine iff_of_true ?_ ⟨by simpa using hmax, fun first second rest h => by cases h⟩
        rw [encodeArcs, if_neg (by simpa using hmax)]
        exact ⟨_, rfl⟩
  | first :: second :: rest, hvalid =>
      by_cases hmax : first = ulongMax
      · refine iff_of_false ?_ (by simp [hmax])
        rintro ⟨e, he⟩
        rw [encodeArcs_direct _ (.inr hmax)] at he
        exact putArcs_ne_thrown _ _ _ _ _ he
      · rw [encodeArcs, if_neg (by simpa using hmax)]
        by_cases hsecond : second = ulongMax
        · rw [if_pos hsecond]
          refine iff_of_true ⟨_, rfl⟩ ⟨by simpa using hmax, ?_⟩
          intro _ _ _ heq _
          cases heq
          exact hsecond
        · rw [if_neg hsecond]
          by_cases htwo : 2 < first
          · rw [if_pos htwo]
            refine iff_of_true ⟨_, rfl⟩ ⟨by simpa using hmax, ?_⟩
            intro _ _ _ heq hlt
            cases heq
            omega
          · rw [if_neg htwo]
            refine iff_of_false ?_ ?_
            · rintro ⟨e, he⟩
              rw [putArc] at he
              split at he
              · exact putArcs_ne_thrown _ _ _ _ _ he
              · cases he
            · rintro ⟨-, h⟩
              refine hvalid ⟨by omega, fun hlt => absurd (h first second rest rfl hlt) hsecond⟩

/-- The conversions agree on the valid lists that can be encoded and on the lists that are
refused. -/
theorem agrees_iff {arcs : List ℕ} (hbound : ∀ arc ∈ arcs, arc < 2 ^ 64) :
    Agrees arcs ↔
      (ValidOid arcs ∧ Encodable arcs) ∨
        (¬ ValidOid arcs ∧ arcs.head? ≠ some ulongMax ∧
          ∀ first second rest, arcs = first :: second :: rest → first < 2 →
            second = ulongMax) := by
  by_cases hvalid : ValidOid arcs
  · simp only [hvalid, true_and, not_true_eq_false, false_and, or_false]
    exact ⟨encodable_of_agrees hbound hvalid, agrees_encodable hvalid⟩
  · simp only [hvalid, false_and, not_false_eq_true, true_and, false_or]
    rw [← refused_iff hvalid]
    exact ⟨fun h => h.2 hvalid, fun h => ⟨fun hnot => absurd hnot hvalid, fun _ => h⟩⟩

/-- The arcs of a country code. -/
theorem agrees_country : Agrees [2, 16, 840, 1] :=
  (agrees_iff (by decide)).mpr
    (.inl ⟨⟨by decide, by decide⟩, by decide, by decide, by decide, by decide⟩)

/-- A second arc of 40 below a first one of 0 is encoded as 1.0. -/
theorem not_agrees_forty : ¬ ∀ arcs : List ℕ, (∀ arc ∈ arcs, arc < 2 ^ 64) → Agrees arcs := by
  intro h
  obtain ⟨e, he⟩ := (h [0, 40] (by decide)).2
    (fun hvalid => absurd (hvalid.2 (by decide)) (by decide))
  cases he

end AsnRelativeOid

end Esnacc
