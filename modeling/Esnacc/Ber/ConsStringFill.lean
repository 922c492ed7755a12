import Esnacc.Ber.ConsStringLoop

/-!
When `ConsStringDeck::Fill` decodes constructed strings as they are encoded, and refuses
everything else.
-/

namespace Esnacc

open BitString Tlv

namespace Parts

open ConsStringDeck

/-! ### Encodings -/

/-- The lengths are those of the octets they stand in front of. -/
def Exact : Parts → Prop
  | nil => True
  | primitive len contents next =>
      isLengthOf contents.length len ∧ len.length ≤ 9 ∧ next.Exact
  | constructed len innerLen inner next =>
      ((innerLen = indefiniteLen ∧ len = [openLength]) ∨
        (innerLen = inner.octets.length ∧ isLengthOf innerLen len ∧ len.length ≤ 9)) ∧
          inner.Exact ∧ next.Exact

/-- No constructed segment has `2 ^ 31` octets. -/
def Small : Parts → Prop
  | nil => True
  | primitive _ _ next => next.Small
  | constructed _ innerLen inner next =>
      inner.octets.length + (endOf innerLen).length < 2 ^ 31 ∧ inner.Small ∧ next.Small

theorem countFrom_add (count : ℕ) (parts : Parts) :
    parts.countFrom (· + ·) count = count + parts.octets.length := by
  induction parts generalizing count with
  | nil => rfl
  | primitive len contents next ih =>
      rw [countFrom, ih]
      simp only [octets, List.length_cons, List.length_append]
      omega
  | constructed len innerLen inner next ihInner ihNext =>
      rw [countFrom, ihNext, ihInner]
      simp only [octets, List.length_cons, List.length_append]
      omega

theorem addCount_small {count inner : ℕ} (hinner : inner < 2 ^ 31) (h : count + inner < 2 ^ 64) :
    addCount count inner = count + inner := by
  rw [addCount, toInt32_eq (by omega) (by omega), toUlong_natCast (by omega), Nat.mod_eq_of_lt h]

theorem countFrom_small {parts : Parts} (hsmall : parts.Small) {count : ℕ}
    (h : count + parts.octets.length < 2 ^ 64) :
    parts.countFrom addCount count = count + parts.octets.length := by
  induction parts generalizing count with
  | nil => rfl
  | primitive len contents next ih =>
      simp only [octets, List.length_cons, List.length_append] at h ⊢
      rw [countFrom, ih hsmall (by omega)]
      omega
  | constructed len innerLen inner next ihInner ihNext =>
      obtain ⟨hlt, hinner, hnext⟩ := hsmall
      simp only [octets, List.length_cons, List.length_append] at h ⊢
      rw [countFrom, ihInner hinner (by omega), addCount_small (by omega) (by omega),
        ihNext hnext (by omega)]
      omega

/-- For small segments it does not matter how the counts are added. -/
theorem fits_small {parts : Parts} (hsmall : parts.Small) {length count : ℕ}
    (h : count + parts.octets.length < 2 ^ 64) :
    parts.Fits addCount length count ↔ parts.Fits (· + ·) length count := by
  induction parts generalizing length count with
  | nil => rw [Fits, Fits]
  | primitive len contents next ih =>
      simp only [octets, List.length_cons, List.length_append] at h
      rw [Fits, Fits, ih hsmall (by omega)]
  | constructed len innerLen inner next ihInner ihNext =>
      obtain ⟨hlt, hinner, hnext⟩ := hsmall
      simp only [octets, List.length_cons, List.length_append] at h
      have hcount := @countFrom_small inner hinner 0 (by omega)
      rw [Fits, Fits, ihInner hinner (by omega), countFrom_add, hcount,
        addCount_small (by omega) (by omega), ihNext hnext (by omega)]

theorem fits_of_exact {parts : Parts} (hexact : parts.Exact) {length count : ℕ}
    (h : count + parts.octets.length < 2 ^ 63)
    (hlength : length = indefiniteLen ∨ length = count + parts.octets.length) :
    parts.Fits (· + ·) length count := by
  have hindef : indefiniteLen = 2 ^ 64 - 1 := rfl
  induction parts generalizing length count with
  | nil =>
      exact hlength.imp id fun h => h.le
  | primitive len contents next ih =>
      obtain ⟨hlen, hshort, hnext⟩ := hexact
      simp only [octets, List.length_cons, List.length_append] at h hlength
      exact ⟨hlength.symm.imp (fun h => by omega) id,
        fun past rest k => bDecLen_reads past rest hlen hshort k, by omega,
        ih hnext (by omega) (hlength.imp id fun h => by omega)⟩
  | constructed len innerLen inner next ihInner ihNext =>
      obtain ⟨hlen, hinner, hnext⟩ := hexact
      simp only [octets, List.length_cons, List.length_append] at h hlength
      have hcount : count + 1 + len.length + (0 + inner.octets.length + (endOf innerLen).length) +
          next.octets.length < 2 ^ 63 := by omega
      rw [Fits, countFrom_add]
      refine ⟨hlength.symm.imp (fun h => by omega) id, ?_, ?_, ?_,
        ihNext hnext hcount (hlength.imp id fun h => by omega)⟩
      · rcases hlen with ⟨rfl, rfl⟩ | ⟨-, hlen, hshort⟩
        · exact bDecLen_openLength
        · exact fun past rest k => bDecLen_reads past rest hlen hshort k
      · rcases hlen with ⟨hopen, -⟩ | ⟨hdefinite, -⟩
        · exact .inl hopen
        · -- what is left of a definite length covers the segment
          refine .inr ((Nat.mod_le _ _).trans ?_)
          rcases hlength with hlength | hlength <;> omega
      · exact ihInner hinner (by omega) (hlen.imp (fun h => h.1) fun h => by omega)

/-- The end of an element is not the beginning of a segment. -/
theorem eq_zero_of_end {length count : ℕ} {o : Octet} {os x y : List Octet}
    (hdone : length = indefiniteLen ∨ length ≤ count) (hmore : More length count)
    (h : endOf length ++ x = o :: os ++ y) : o = 0 := by
  have hopen : length = indefiniteLen := by
    rcases hdone with hdone | hdone
    · exact hdone
    · exact hmore.resolve_left (Nat.not_lt.mpr hdone)
  rw [hopen, endOf_indefinite] at h
  exact (List.cons.inj h).1.symm

/-- What stands in front of anything is read in one way only. -/
theorem Fits.unique {add : ℕ → ℕ → ℕ} {parts parts' : Parts} {length count : ℕ} {x y : List Octet}
    (h : parts.Fits add length count) (h' : parts'.Fits add length count)
    (hoctets : parts.octets ++ (endOf length ++ x) = parts'.octets ++ (endOf length ++ y)) :
    parts = parts' ∧ x = y := by
  induction parts generalizing parts' length count x y with
  | nil =>
      cases parts' with
      | nil => exact ⟨rfl, List.append_cancel_left hoctets⟩
      | primitive len contents next => exact absurd (eq_zero_of_end h h'.1 hoctets) (by decide)
      | constructed len innerLen inner next =>
          exact absurd (eq_zero_of_end h h'.1 hoctets) (by decide)
  | primitive len contents next ih =>
      cases parts' with
      | nil => exact absurd (eq_zero_of_end h' h.1 hoctets.symm) (by decide)
      | primitive len' contents' next' =>
          obtain ⟨-, hlen, -, hnext⟩ := h
          obtain ⟨-, hlen', -, hnext'⟩ := h'
          simp only [octets, List.cons_append, List.append_assoc, List.cons.injEq, true_and]
            at hoctets
          obtain ⟨rfl, hlength, hoctets⟩ := hlen.unique hlen' hoctets
          obtain ⟨rfl, hrest⟩ := List.append_inj hoctets hlength
          obtain ⟨rfl, rfl⟩ := ih hnext hnext' hrest
          exact ⟨rfl, rfl⟩
      | constructed len' innerLen' inner' next' =>
          exact absurd (List.cons.inj hoctets).1 (by decide)
  | constructed len innerLen inner next ihInner ihNext =>
      cases parts' with
      | nil => exact absurd (eq_zero_of_end h' h.1 hoctets.symm) (by decide)
      | primitive len' contents' next' => exact absurd (List.cons.inj hoctets).1 (by decide)
      | constructed len' innerLen' inner' next' =>
          obtain ⟨-, hlen, -, hinner, hnext⟩ := h
          obtain ⟨-, hlen', -, hinner', hnext'⟩ := h'
          simp only [octets, List.cons_append, List.append_assoc, List.cons.injEq, true_and]
            at hoctets
          obtain ⟨rfl, rfl, hoctets⟩ := hlen.unique hlen' hoctets
          obtain ⟨rfl, hrest⟩ := ihInner hinner hinner' hoctets
          obtain ⟨rfl, rfl⟩ := ihNext hnext hnext' hrest
          exact ⟨rfl, rfl⟩

/-! ### Counts that go through an `int` -/

/-- The count behind the segments, as a number with a sign. -/
def signedCount : Parts → ℤ
  | nil => 0
  | primitive len contents next => 1 + len.length + contents.length + next.signedCount
  | constructed len innerLen inner next =>
      1 + len.length + toInt32 (inner.octets.length + (endOf innerLen).length : ℕ) +
        next.signedCount

theorem toInt32_le_self (n : ℕ) : -(n : ℤ) ≤ toInt32 n ∧ toInt32 n ≤ n ∧
    (toInt32 n = n → n < 2 ^ 31) := by
  have hge := le_toInt32 n
  have hlt := toInt32_lt n
  have hmod := toInt32_emod n
  generalize toInt32 n = z at hge hlt hmod ⊢
  refine ⟨?_, ?_, fun h => ?_⟩ <;> omega

theorem addCount_emod (count inner : ℕ) :
    ((addCount count inner : ℕ) : ℤ) % 2 ^ 64 = (count + toInt32 inner) % 2 ^ 64 := by
  have hpos : 0 ≤ toInt32 (inner : ℤ) % 2 ^ 64 := Int.emod_nonneg _ (by decide)
  rw [addCount, toUlong]
  omega

theorem toInt32_congr {x y : ℤ} (h : x % 2 ^ 32 = y % 2 ^ 32) : toInt32 x = toInt32 y :=
  (toInt32_eq_iff (le_toInt32 y) (toInt32_lt y)).mpr (h.trans (toInt32_emod y).symm)

theorem countFrom_emod (count : ℕ) (parts : Parts) :
    ((parts.countFrom addCount count : ℕ) : ℤ) % 2 ^ 64 = (count + parts.signedCount) % 2 ^ 64 ∧
      ((parts.countFrom addCount count : ℕ) : ℤ) % 2 ^ 32 =
        (count + parts.octets.length : ℤ) % 2 ^ 32 := by
  induction parts generalizing count with
  | nil =>
      simp [countFrom, signedCount, octets]
  | primitive len contents next ih =>
      obtain ⟨hsigned, hlength⟩ := ih (count + 1 + len.length + contents.length)
      simp only [countFrom, signedCount, octets, List.length_cons, List.length_append]
      rw [hsigned, hlength]
      constructor
      · congr 1
        push_cast
        ring
      · congr 1
        push_cast
        ring
  | constructed len innerLen inner next ihInner ihNext =>
      obtain ⟨-, hinner⟩ := ihInner 0
      have hcount := addCount_emod (count + 1 + len.length)
        (inner.countFrom addCount 0 + (endOf innerLen).length)
      -- the cast sees the count modulo `2 ^ 32` only, where it is that of the octets
      have hcast : toInt32 (inner.countFrom addCount 0 + (endOf innerLen).length : ℕ) =
          toInt32 (inner.octets.length + (endOf innerLen).length : ℕ) := by
        apply toInt32_congr
        push_cast
        omega
      have hmod := toInt32_emod (inner.octets.length + (endOf innerLen).length : ℕ)
      rw [hcast] at hcount
      obtain ⟨hsigned, hlength⟩ := ihNext (addCount (count + 1 + len.length)
        (inner.countFrom addCount 0 + (endOf innerLen).length))
      simp only [countFrom, signedCount, octets, List.length_cons, List.length_append]
      generalize toInt32 (inner.octets.length + (endOf innerLen).length : ℕ) = z at hcount hmod ⊢
      rw [hsigned, hlength]
      push_cast at hcount hmod ⊢
      constructor <;> omega

/-- Each constructed segment of `2 ^ 31` octets or more makes the count smaller. -/
theorem signedCount_bounds (parts : Parts) :
    -(parts.octets.length : ℤ) ≤ parts.signedCount ∧
      parts.signedCount ≤ parts.octets.length := by
  induction parts with
  | nil => simp [signedCount, octets]
  | primitive len contents next ih =>
      simp only [signedCount, octets, List.length_cons, List.length_append]
      push_cast
      omega
  | constructed len innerLen inner next ihInner ihNext =>
      simp only [signedCount, octets, List.length_cons, List.length_append]
      have hbounds := toInt32_le_self (inner.octets.length + (endOf innerLen).length)
      generalize toInt32 (inner.octets.length + (endOf innerLen).length : ℕ) = z at hbounds ⊢
      push_cast at hbounds ⊢
      omega

theorem small_of_length {parts : Parts} (h : parts.octets.length < 2 ^ 31) : parts.Small := by
  induction parts with
  | nil => trivial
  | primitive len contents next ih =>
      simp only [octets, List.length_cons, List.length_append] at h
      exact ih (by omega)
  | constructed len innerLen inner next ihInner ihNext =>
      simp only [octets, List.length_cons, List.length_append] at h
      exact ⟨by omega, ihInner (by omega), ihNext (by omega)⟩

theorem small_of_signedCount {parts : Parts} (h : parts.signedCount = parts.octets.length) :
    parts.Small := by
  induction parts with
  | nil => trivial
  | primitive len contents next ih =>
      simp only [signedCount, octets, List.length_cons, List.length_append] at h
      exact ih (by push_cast at h; omega)
  | constructed len innerLen inner next ihInner ihNext =>
      simp only [signedCount, octets, List.length_cons, List.length_append] at h
      obtain ⟨-, hnext⟩ := signedCount_bounds next
      obtain ⟨-, hle, hlt⟩ := toInt32_le_self (inner.octets.length + (endOf innerLen).length)
      generalize toInt32 (inner.octets.length + (endOf innerLen).length : ℕ) = z at h hle hlt
      push_cast at h hle hlt
      -- no summand exceeds its octets, so none falls short of them either
      have hsmall := hlt (by omega)
      exact ⟨hsmall, small_of_length (by omega), ihNext (by omega)⟩

/-- The count is that of the octets only if no constructed segment is too long. -/
theorem small_of_countFrom {parts : Parts} (hsize : parts.octets.length < 2 ^ 63)
    (h : parts.countFrom addCount 0 = parts.octets.length) : parts.Small := by
  obtain ⟨hsigned, -⟩ := countFrom_emod 0 parts
  obtain ⟨hge, hle⟩ := signedCount_bounds parts
  rw [h] at hsigned
  exact small_of_signedCount (by push_cast at hsigned; omega)

end Parts

namespace ConsStringDeck

open Parts

/-! ### `Fill` -/

section Fill

variable {elmtLen n : ℕ} {past rest : List Octet}

theorem fill_run (elmtLen n : ℕ) (past rest : List Octet) : (fill 4 elmtLen n).run ⟨past, rest⟩ =
    (fillLoop 4 (rest.length + 2) ⟨elmtLen, 0⟩ [] [] >>= fun r => pure (r.1, n + r.2)).run
      ⟨past, rest⟩ := rfl

theorem fill_parts {parts : Parts} (hfits : parts.Fits addCount elmtLen 0) :
    (fill 4 elmtLen n).run ⟨past, parts.octets ++ (endOf elmtLen ++ rest)⟩ =
      .ok ((parts.pieces, n + (parts.countFrom addCount 0 + (endOf elmtLen).length)),
        ⟨passed elmtLen parts past, rest⟩) := by
  obtain ⟨fuel, -, hrun⟩ := @fillLoop_parts parts elmtLen 0
    ((parts.octets ++ (endOf elmtLen ++ rest)).length + 2) [] [] past rest hfits
    (by rw [List.length_append]; omega)
  rw [fill_run, StateT.run_bind, hrun]
  rfl

theorem of_fill {deck : List (List Octet)} {n' : ℕ} {b : AsnBuf}
    (h : (fill 4 elmtLen n).run ⟨past, rest⟩ = .ok ((deck, n'), b)) :
    ∃ (parts : Parts) (after : List Octet),
      rest = parts.octets ++ (endOf elmtLen ++ after) ∧ parts.Fits addCount elmtLen 0 := by
  rw [fill_run] at h
  obtain ⟨r, b', hloop, -⟩ := StreamCodec.run_bind_eq_ok h
  obtain ⟨parts, after, -, -, hrest, hfits, -⟩ := of_fillLoop hloop
  exact ⟨parts, after, hrest, hfits⟩

theorem fill_returns (elmtLen n : ℕ) (past rest : List Octet) :
    (∃ r b, (fill 4 elmtLen n).run ⟨past, rest⟩ = .ok (r, b)) ∨
      Throws ((fill 4 elmtLen n).run ⟨past, rest⟩) := by
  rcases @fillLoop_throws elmtLen 0 (rest.length + 2) [] [] past rest
    (by rw [List.length_nil]; omega) with ⟨r, hok⟩ | hthrows
  · refine .inl ⟨(r.1.1, n + r.1.2), r.2, ?_⟩
    rw [fill_run, StateT.run_bind, hok]
    rfl
  · rw [fill_run]
    exact .inr hthrows.bind

end Fill

/-- The octets begin with contents of this length that consist of segments, every length in
which is that of the octets it stands in front of. -/
def Encoded (elmtLen : ℕ) (rest : List Octet) (parts : Parts) (after : List Octet) : Prop :=
  parts.Exact ∧ (elmtLen = indefiniteLen ∨ elmtLen = parts.octets.length) ∧
    rest = parts.octets ++ (endOf elmtLen ++ after)

/-- Encoded contents are decoded: the pieces are collected in order, what was read is counted
and what follows is left. Everything else is refused. -/
def Decodes (elmtLen n : ℕ) (past rest : List Octet) : Prop :=
  (∀ parts after, Encoded elmtLen rest parts after →
    (fill 4 elmtLen n).run ⟨past, rest⟩ =
      .ok ((parts.pieces, n + (parts.octets.length + (endOf elmtLen).length)),
        ⟨passed elmtLen parts past, after⟩)) ∧
    ((¬ ∃ parts after, Encoded elmtLen rest parts after) →
      Throws ((fill 4 elmtLen n).run ⟨past, rest⟩))

/-- Encoded contents have no constructed segment of `2 ^ 31` octets or more. And where the
octets can be taken for segments of which each constructed one is left as soon as its length
is reached, their lengths are exact. -/
def Delimited (elmtLen : ℕ) (rest : List Octet) : Prop :=
  (∀ parts after, Encoded elmtLen rest parts after → parts.Small) ∧
    ∀ parts after, rest = parts.octets ++ (endOf elmtLen ++ after) →
      parts.Fits addCount elmtLen 0 → Encoded elmtLen rest parts after

section Decodes

variable {elmtLen n : ℕ} {past rest : List Octet}

/-- The segments that the loop finds are the encoded ones if it counts them right. -/
theorem parts_eq_of_run (hsize : rest.length < 2 ^ 63) {parts parts' : Parts}
    {after after' : List Octet} (hfits : parts.Fits addCount elmtLen 0)
    (hrest : rest = parts.octets ++ (endOf elmtLen ++ after))
    (hencoded : Encoded elmtLen rest parts' after')
    (h : (fill 4 elmtLen n).run ⟨past, rest⟩ =
      .ok ((parts'.pieces, n + (parts'.octets.length + (endOf elmtLen).length)),
        ⟨passed elmtLen parts' past, after'⟩)) :
    parts = parts' ∧ after = after' ∧ parts.Small := by
  obtain ⟨hexact, hlength, hrest'⟩ := hencoded
  have hrun := @fill_parts elmtLen n past after parts hfits
  rw [← hrest, h] at hrun
  obtain ⟨hresult, hbuf⟩ := Prod.mk.inj (Except.ok.inj hrun)
  have hafter : after' = after := congrArg Cursor.rest hbuf
  have hcount := (Prod.mk.inj hresult).2
  rw [hrest, hafter] at hrest'
  -- the same octets are left, so the same octets were read
  have hoctets : parts.octets = parts'.octets := List.append_cancel_right hrest'
  have hshort : parts.octets.length ≤ rest.length := by
    rw [hrest, List.length_append]
    omega
  rw [← hoctets] at hcount
  have hsmall : parts.Small := small_of_countFrom (by omega) (by omega)
  have hfits' : parts'.Fits (· + ·) elmtLen 0 := by
    refine fits_of_exact hexact ?_ ?_
    · rw [← hoctets]
      omega
    · rwa [Nat.zero_add]
  have hunique := ((fits_small hsmall (by omega)).mp hfits).unique hfits' hrest'
  exact ⟨hunique.1, hafter.symm, hsmall⟩

theorem delimited_of_decodes (hsize : rest.length < 2 ^ 63) (h : Decodes elmtLen n past rest) :
    Delimited elmtLen rest := by
  constructor
  · intro parts after hencoded
    have hrun := h.1 parts after hencoded
    obtain ⟨parts', after', hrest, hfits⟩ := of_fill hrun
    obtain ⟨rfl, -, hsmall⟩ := parts_eq_of_run hsize hfits hrest hencoded hrun
    exact hsmall
  · intro parts after hrest hfits
    by_cases hsome : ∃ parts after, Encoded elmtLen rest parts after
    · obtain ⟨parts', after', hencoded⟩ := hsome
      obtain ⟨rfl, rfl, -⟩ := parts_eq_of_run hsize hfits hrest hencoded
        (h.1 parts' after' hencoded)
      exact hencoded
    · -- the loop would return where it has to throw
      obtain ⟨e, he⟩ := h.2 hsome
      have hrun := @fill_parts elmtLen n past after parts hfits
      rw [← hrest, he] at hrun
      cases hrun

theorem decodes_of_delimited (hsize : rest.length < 2 ^ 63) (h : Delimited elmtLen rest) :
    Decodes elmtLen n past rest := by
  constructor
  · intro parts after hencoded
    have hsmall := h.1 parts after hencoded
    obtain ⟨hexact, hlength, rfl⟩ := hencoded
    rw [List.length_append] at hsize
    have hfits : parts.Fits addCount elmtLen 0 := by
      refine (fits_small hsmall (by omega)).mpr (fits_of_exact hexact (by omega) ?_)
      rwa [Nat.zero_add]
    rw [fill_parts hfits, countFrom_small hsmall (by omega), Nat.zero_add]
  · intro hnone
    rcases fill_returns elmtLen n past rest with ⟨r, b, hok⟩ | hthrows
    · obtain ⟨parts, after, hrest, hfits⟩ := of_fill hok
      exact absurd ⟨parts, after, h.2 parts after hrest hfits⟩ hnone
    · exact hthrows

end Decodes

/-- `Fill` decodes what is encoded and refuses the rest exactly when every length that it
leaves an element by is exact and no count is too large for an `int`. -/
theorem fill_decodes_iff (elmtLen n : ℕ) (past : List Octet) {rest : List Octet}
    (hsize : rest.length < 2 ^ 63) : Decodes elmtLen n past rest ↔ Delimited elmtLen rest :=
  ⟨delimited_of_decodes hsize, decodes_of_delimited hsize⟩

/-- One primitive segment of two octets. -/
theorem fill_decodes_two : Decodes 4 0 [4, 0x24] [0x04, 0x02, 0xAA, 0xBB] := by
  have hfits : (Parts.primitive [0x02] [0xAA, 0xBB] .nil).Fits addCount 4 0 :=
    ⟨.inl (by decide), fun past rest k => bDecLen_reads past rest (by decide) (by decide) k,
      by decide, .inr (by decide)⟩
  refine (fill_decodes_iff 4 0 [4, 0x24] (by decide)).mpr ⟨?_, ?_⟩
  · intro parts after hencoded
    have hlength := congrArg List.length hencoded.2.2
    rw [List.length_append] at hlength
    exact small_of_length (by simp only [List.length_cons, List.length_nil] at hlength; omega)
  · intro parts after hrest hparts
    have hoctets : (Parts.primitive [0x02] [0xAA, 0xBB] .nil).octets ++ (endOf 4 ++ []) =
        parts.octets ++ (endOf 4 ++ after) := by
      rw [← hrest]
      decide
    obtain ⟨rfl, rfl⟩ := hfits.unique hparts hoctets
    exact ⟨⟨by decide, by decide, trivial⟩, .inr (by decide), by decide⟩

/-- A primitive segment of four octets in contents of three is accepted. -/
theorem not_fill_decodes : ¬ ∀ (elmtLen n : ℕ) (past rest : List Octet), rest.length < 2 ^ 63 →
    Decodes elmtLen n past rest := by
  intro h
  have hdecodes := h 3 0 [3, 0x24] [0x04, 0x02, 0xAA, 0xBB] (by decide)
  obtain ⟨-, hlength, -⟩ := (delimited_of_decodes (by decide) hdecodes).2
    (.primitive [0x02] [0xAA, 0xBB] .nil) [] (by decide)
    ⟨.inl (by decide), fun past rest k => bDecLen_reads past rest (by decide) (by decide) k,
      by decide, .inr (by decide)⟩
  exact absurd hlength (by decide)

end ConsStringDeck

end Esnacc
