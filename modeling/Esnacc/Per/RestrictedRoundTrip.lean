import Esnacc.Per.RestrictedString
import Esnacc.Per.SizeRoundTrip

/-!
Which restricted character strings survive the packed encoding. Characters that are written as
they are cause no trouble. An index comes back, but it stays in the string that was encoded, and
an alphabet that leaves indexes unused has no character for them.
-/

namespace Esnacc

open BitString StreamCodec AsnBufBits

/-! ### The width of a character -/

theorem findB2_le {B : ℕ} (h : B ≤ 8) : B ≤ findB2 B ∧ 1 ≤ findB2 B ∧ findB2 B ≤ 8 := by
  revert B
  decide

namespace Alphabet

variable (a : Alphabet)

/-- The bits that number the characters. -/
def bits : ℕ := (a.chars.length - 1).size

/-- The bits of an index. -/
def width (bAligned : Bool) : ℕ := if bAligned then findB2 a.bits else a.bits

theorem length_pos : 0 < a.chars.length := List.length_pos_iff.mpr a.ne_nil

theorem length_le : a.chars.length ≤ 256 := by
  have hnodup : (a.chars.map BitVec.toFin).Nodup := a.nodup.map BitVec.toFin_injective
  have hcard := hnodup.length_le_card
  rwa [List.length_map, Fintype.card_fin] at hcard

theorem bits_le : a.bits ≤ 8 := by
  have hle := a.length_le
  exact Nat.size_le.mpr (by omega)

theorem numBits_eq : a.numBits = .ok a.bits := by
  have hpos := a.length_pos
  have hle := a.length_le
  have hcast : ((a.chars.length : ℤ) - 1) = ((a.chars.length - 1 : ℕ) : ℤ) := by omega
  rw [numBits, hcast]
  exact minBitsNeeded_eq (by omega)

theorem indexBits_eq (bAligned : Bool) : a.indexBits bAligned = .ok (a.width bAligned) := by
  rw [indexBits, numBits_eq]
  rfl

variable (bAligned : Bool)

theorem width_le : a.width bAligned ≤ 8 := by
  have hle := a.bits_le
  have hB2 := findB2_le hle
  unfold width
  split
  · exact hB2.2.2
  · exact hle

theorem length_le_width : a.chars.length ≤ 2 ^ a.width bAligned := by
  have hlt := Nat.lt_size_self (a.chars.length - 1)
  have hB2 := findB2_le a.bits_le
  have hmono : 2 ^ a.bits ≤ 2 ^ a.width bAligned := by
    refine Nat.pow_le_pow_right (by decide) ?_
    unfold width
    split
    · exact hB2.1
    · exact le_rfl
  have hpos := a.length_pos
  unfold bits at hmono
  omega

/-- Characters are written as they are. -/
def AsIs : Prop := a.ub ≤ 2 ^ a.width bAligned - 1

instance : Decidable (a.AsIs bAligned) := inferInstanceAs (Decidable (_ ≤ _))

/-- The bits of a character. -/
def charBits : ℕ := if a.AsIs bAligned then 8 else a.width bAligned

theorem charBits_le : a.charBits bAligned ≤ 8 := by
  unfold charBits
  split
  · exact le_rfl
  · exact a.width_le bAligned

/-- The second test of the decoder decides as the first. -/
theorem ub_le_iff : a.ub ≤ 2 ^ a.charBits bAligned - 1 ↔ a.AsIs bAligned := by
  unfold charBits
  by_cases hasis : a.AsIs bAligned
  · have hlt : a.ub < 2 ^ 7 := BitVec.toInt_lt
    rw [if_pos hasis]
    exact iff_of_true (by norm_num at hlt ⊢; omega) hasis
  · rw [if_neg hasis]
    exact Iff.rfl

/-! ### One character -/

theorem findChar_eq_ok {c i : Octet} (h : a.findChar c = .ok i) :
    ∃ count, a.chars[count]? = some c ∧ c.toNat < 128 ∧ i = BitVec.ofNat 8 count := by
  unfold findChar at h
  split at h
  · rename_i count hfind
    obtain ⟨hlt, hch, -⟩ := List.findIdx?_eq_some_iff_getElem.mp hfind
    have hnat : (a.chars[count].toInt) = c.toNat := of_decide_eq_true hch
    have hsmall : c.toNat < 128 := by
      have hint : a.chars[count].toInt < 2 ^ 7 := BitVec.toInt_lt
      omega
    refine ⟨count, ?_, hsmall, (Except.ok.inj h).symm⟩
    rw [List.getElem?_eq_getElem hlt, Option.some_inj]
    refine BitVec.eq_of_toNat_eq ?_
    rw [BitVec.toInt_eq_toNat_cond] at hnat
    split at hnat <;> omega
  · cases h

theorem findChar_of_getElem? {c : Octet} {count : ℕ} (h : a.chars[count]? = some c)
    (hsmall : c.toNat < 128) : a.findChar c = .ok (BitVec.ofNat 8 count) := by
  obtain ⟨hlt, hch⟩ := List.getElem?_eq_some_iff.mp h
  have hfind : a.chars.findIdx? (fun ch => decide (ch.toInt = (c.toNat : ℤ))) = some count := by
    refine List.findIdx?_eq_some_iff_getElem.mpr ⟨hlt, ?_, fun j hj hdec => ?_⟩
    · rw [hch, decide_eq_true_eq, BitVec.toInt_eq_toNat_cond, if_pos (by omega)]
    · have hnat := of_decide_eq_true hdec
      have heq : a.chars[j] = c := by
        refine BitVec.eq_of_toNat_eq ?_
        rw [BitVec.toInt_eq_toNat_cond] at hnat
        split at hnat <;> omega
      exact absurd ((a.nodup.getElem_inj_iff).mp (heq.trans hch.symm)) (by omega)
  rw [findChar, hfind]

/-- The index of the character is what stands in its own leading bits. -/
def Kept (c : Octet) : Prop :=
  ∃ i, a.chars[i]? = some c ∧ i * 2 ^ (8 - a.width bAligned) = c.toNat ∧ c.toNat < 128

/-- The characters of a string stay what they are, and every index has a character. -/
def Harmless (str : List Octet) : Prop :=
  a.AsIs bAligned ∨
    a.chars.length = 2 ^ a.width bAligned ∧ ∀ c ∈ str, a.Kept bAligned c

theorem interpretChar_asIs (h : a.AsIs bAligned) (c : Octet) :
    a.interpretChar bAligned c = .ok (c, 8) := by
  rw [interpretChar, indexBits_eq]
  exact if_pos h

theorem interpretChar_index (h : ¬ a.AsIs bAligned) (c : Octet) :
    a.interpretChar bAligned c =
      (a.findChar c).map fun seg : Octet =>
        (seg <<< (8 - a.width bAligned), a.width bAligned) := by
  rw [interpretChar, indexBits_eq]
  refine (if_neg h).trans ?_
  cases a.findChar c <;> rfl

/-- An index that is written in the leading bits of an octet. -/
theorem toNat_shifted {i n : ℕ} (hn : n ≤ 8) (hi : i < 2 ^ n) :
    (BitVec.ofNat 8 i <<< (8 - n) : Octet).toNat = i * 2 ^ (8 - n) := by
  have hpow : 2 ^ n * 2 ^ (8 - n) = 256 := by
    rw [← pow_add, Nat.add_sub_cancel' hn]
    rfl
  have hlt : i * 2 ^ (8 - n) < 2 ^ n * 2 ^ (8 - n) :=
    Nat.mul_lt_mul_of_pos_right hi (Nat.two_pow_pos _)
  have hle : 2 ^ n ≤ 2 ^ 8 := Nat.pow_le_pow_right (by decide) hn
  have hi' : i % 2 ^ 8 = i := Nat.mod_eq_of_lt (by omega)
  rw [BitVec.toNat_shiftLeft, BitVec.toNat_ofNat, hi', Nat.shiftLeft_eq,
    Nat.mod_eq_of_lt (by omega)]

/-- A character is left as it was exactly if its index stands in its leading bits. -/
theorem interpretChar_kept_iff (h : ¬ a.AsIs bAligned) (c : Octet) :
    (∃ n, a.interpretChar bAligned c = .ok (c, n)) ↔ a.Kept bAligned c := by
  have hwidth := a.width_le bAligned
  have hlen := a.length_le_width bAligned
  rw [interpretChar_index a bAligned h]
  constructor
  · rintro ⟨n, hn⟩
    cases hfind : a.findChar c with
    | error e =>
        rw [hfind] at hn
        cases hn
    | ok seg =>
        obtain ⟨i, hi, hsmall, rfl⟩ := a.findChar_eq_ok hfind
        rw [hfind] at hn
        have hc := (Prod.mk.inj (Except.ok.inj hn)).1
        have hlt : i < a.chars.length := (List.getElem?_eq_some_iff.mp hi).1
        refine ⟨i, hi, ?_, hsmall⟩
        rw [← toNat_shifted hwidth (by omega), hc]
  · rintro ⟨i, hi, hshift, hsmall⟩
    have hlt : i < a.chars.length := (List.getElem?_eq_some_iff.mp hi).1
    refine ⟨a.width bAligned, ?_⟩
    rw [findChar_of_getElem? a hi hsmall]
    have hc : (BitVec.ofNat 8 i <<< (8 - a.width bAligned) : Octet) = c :=
      BitVec.eq_of_toNat_eq ((toNat_shifted hwidth (by omega)).trans hshift)
    show Except.ok (_, _) = _
    rw [hc]

end Alphabet

open AsnInt

variable {bAligned : Bool}

/-- The octet that `GetBits` returns for a few bits, moved to its low end. -/
theorem toNat_headD_ushiftRight {xs : List Bool} (h : xs.length ≤ 8) :
    ((pack xs ++ [0] : List Octet).headD 0 >>> (8 - xs.length)).toNat = natOfBits xs := by
  by_cases hnil : xs = []
  · subst hnil
    decide
  · rw [headD_pack hnil h, toNat_ofBits_ushiftRight h]

namespace AsnString

variable (a : Alphabet)

/-- What `Deterpret` does with the bits of a character. -/
theorem deterpret_run {pos : ℕ} {xs rest : List Bool} {s : AsnBufBits}
    (hlen : xs.length = a.charBits bAligned) (hs : Unread bAligned pos (xs ++ rest) s)
    (str : List Octet) :
    ∃ s', Unread bAligned (pos + xs.length) rest s' ∧ (deterpret a str).run s =
      if a.AsIs bAligned then .ok ((str ++ [BitVec.ofNat 8 (natOfBits xs)], xs.length), s')
      else match a.chars[natOfBits xs]? with
        | some c => .ok ((str ++ [c], xs.length), s')
        | none => .error outsideAlphabet := by
  obtain ⟨s', hrun, hs'⟩ := takes_getBits pos xs s rest hs
  have hle := a.charBits_le bAligned
  have hbits := toNat_headD_ushiftRight (hlen.trans_le hle)
  have haligned : PerM.isAligned.run s = .ok (bAligned, s) := by
    rw [← hs.bAlign]
    rfl
  have hub := a.ub_le_iff bAligned
  refine ⟨s', hs', ?_⟩
  unfold deterpret
  rw [run_bind_of_ok haligned, a.indexBits_eq, lift_ok, pure_bind]
  show (PerM.getBits (a.charBits bAligned) >>= _).run s = _
  rw [← hlen, run_bind_of_ok hrun]
  show StateT.run (if a.ub ≤ 2 ^ a.charBits bAligned - 1 then _ else _) s' = _
  by_cases hasis : a.AsIs bAligned
  · rw [if_pos (hub.mpr hasis), if_pos hasis]
    show Except.ok ((str ++ [(pack xs ++ [0] : List Octet).headD 0 >>> (8 - a.charBits bAligned)],
      a.charBits bAligned), s') = _
    rw [← hlen, ← hbits, BitVec.ofNat_toNat, BitVec.setWidth_eq]
  · rw [if_neg (mt hub.mp hasis), if_neg hasis]
    show StateT.run (match a.chars[((pack xs ++ [0] : List Octet).headD 0 >>>
      (8 - a.charBits bAligned)).toNat]? with | some _ => _ | none => _) s' = _
    rw [hlen.symm, hbits]
    cases a.chars[natOfBits xs]? with
    | none => rfl
    | some c =>
        show Except.ok ((str ++ [c], a.charBits bAligned), s') = _
        rw [← hlen]

/-- A character that stays what it is comes back. -/
theorem char_roundTrip {c : Octet} (h : a.Harmless bAligned [c]) :
    ∃ xs, a.interpretChar bAligned c = .ok (c, xs.length) ∧
      (∀ pre, Puts bAligned pre (PerM.putBits [c] xs.length) xs) ∧
      ∀ pos str, Takes (Unread bAligned) pos xs (deterpret a str) (str ++ [c], xs.length) := by
  by_cases hasis : a.AsIs bAligned
  · have hlen : (bitsOf c).length = a.charBits bAligned := by
      rw [length_bitsOf, Alphabet.charBits, if_pos hasis]
    refine ⟨bitsOf c, ?_, fun pre => ?_, fun pos str s rest hs => ?_⟩
    · rw [a.interpretChar_asIs bAligned hasis, length_bitsOf]
    · rw [length_bitsOf]
      exact puts_octet pre c
    · obtain ⟨s', hs', hrun⟩ := deterpret_run a hlen hs str
      rw [if_pos hasis, natOfBits_bitsOf, BitVec.ofNat_toNat, BitVec.setWidth_eq] at hrun
      exact ⟨s', hrun, hs'⟩
  · obtain ⟨-, hkept⟩ := h.resolve_left hasis
    obtain ⟨i, hi, hshift, hsmall⟩ := hkept c (List.mem_singleton_self c)
    have hwidth := a.width_le bAligned
    have hlt : i < 2 ^ a.width bAligned :=
      (List.getElem?_eq_some_iff.mp hi).1.trans_le (a.length_le_width bAligned)
    have hlen : ((bitsOf (BitVec.ofNat 8 i)).drop (8 - a.width bAligned)).length =
        a.width bAligned := by
      rw [List.length_drop, length_bitsOf]
      omega
    have hchar : (BitVec.ofNat 8 i <<< (8 - a.width bAligned) : Octet) = c :=
      BitVec.eq_of_toNat_eq ((Alphabet.toNat_shifted hwidth hlt).trans hshift)
    have hcharBits : a.charBits bAligned = a.width bAligned := if_neg hasis
    refine ⟨(bitsOf (BitVec.ofNat 8 i)).drop (8 - a.width bAligned), ?_, fun pre => ?_,
      fun pos str s rest hs => ?_⟩
    · rw [a.interpretChar_index bAligned hasis, a.findChar_of_getElem? hi hsmall, hlen]
      show Except.ok (_, _) = _
      rw [hchar]
    · rw [hlen, ← hchar]
      exact puts_lowOctet pre _ hwidth
    · obtain ⟨s', hs', hrun⟩ := deterpret_run a (hlen.trans hcharBits.symm) hs str
      rw [if_neg hasis, natOfBits_drop_ofNat i hwidth, Nat.mod_eq_of_lt hlt, hi] at hrun
      exact ⟨s', hrun, hs'⟩

theorem puts_interpret {str : List Octet} {offset : ℕ} {c : Octet} {xs : List Bool}
    (hc : str.getD offset 0 = c) (hchar : a.interpretChar bAligned c = .ok (c, xs.length))
    (hputs : ∀ pre, Puts bAligned pre (PerM.putBits [c] xs.length) xs) (pre : List Bool) :
    Puts bAligned pre (interpret a str offset) xs := by
  refine ((emits_isAligned pre).bind ?_).of_eq rfl (List.nil_append _)
  simp only [hc, hchar, lift_ok, pure_bind, List.append_nil]
  exact (hputs pre).bind_pure fun _ => xs.length

/-- Characters that stay what they are come back. -/
theorem chars_roundTrip {str : List Octet} (h : a.Harmless bAligned str) {offset count : ℕ}
    (hle : offset + count ≤ str.length) :
    ∃ xs, (∀ pre, Puts bAligned pre (interpretUnits (interpret a str) offset count) xs) ∧
      ∀ pos acc, Takes (Unread bAligned) pos xs (deterpretUnits (deterpret a) count acc)
        (acc ++ (str.drop offset).take count, xs.length) := by
  induction count generalizing offset with
  | zero =>
      refine ⟨[], fun pre => Emits.pure pre 0, fun pos acc => ?_⟩
      rw [List.take_zero, List.append_nil]
      exact Takes.pure pos _
  | succ count ih =>
      have hin : offset < str.length := by omega
      have hget : str.getD offset 0 = str[offset] := by simp [hin]
      obtain ⟨xs, hchar, hputs, htakes⟩ := char_roundTrip a (c := str[offset])
        (h.imp_right fun hall => ⟨hall.1, fun c hc => by
          rw [List.mem_singleton.mp hc]
          exact hall.2 _ (List.getElem_mem hin)⟩)
      obtain ⟨ys, hputs', htakes'⟩ := @ih (offset + 1) (by omega)
      refine ⟨xs ++ ys, fun pre => ?_, fun pos acc => ?_⟩
      · exact (puts_interpret a hget hchar hputs pre).add (hputs' (pre ++ xs))
      · refine ((htakes pos acc).bind ((htakes' _ (acc ++ [str[offset]])).bind_pure _)).of_eq
          ?_ rfl
        rw [List.drop_eq_getElem_cons hin, List.take_succ_cons, List.append_assoc,
          List.singleton_append, List.length_append]

theorem unitCodec {str : List Octet} (h : a.Harmless bAligned str) :
    UnitCodec (interpretUnits (interpret a str)) (deterpretUnits (deterpret a))
      (fun n acc => acc = str.take n) str.length bAligned where
  stretch pre offset count _ hle := by
    obtain ⟨xs, hputs, htakes⟩ := chars_roundTrip a h hle
    refine ⟨xs, hputs pre, fun acc hacc => ⟨_, ?_, htakes pre.length acc⟩⟩
    rw [hacc, List.take_add]
  nothing _ pos acc hacc := ⟨acc, hacc, Takes.pure pos _⟩

theorem chars_recovers {str : List Octet} (h : a.Harmless bAligned str) (pre : List Bool) :
    Recovers (Written bAligned) (Unread bAligned) pre (encodeGeneral a str) (decodeGeneral a)
      (· = str) := by
  obtain ⟨xs, str', hputs, hstr', hgets⟩ := Esnacc.general_roundTrip takes_alignment
    (unitCodec a h) pre (show ([] : List Octet) = str.take 0 from List.take_zero.symm)
  exact ⟨xs.length, xs, str', hputs, hstr'.trans List.take_length, hgets⟩

/-! ### Size constraints -/

theorem isLong_eq {b : SizeBounds} (hge : -2 ^ 31 ≤ b.iSCUpperBound * findB2 a.bits)
    (hlt : b.iSCUpperBound * findB2 a.bits < 2 ^ 31) :
    isLong a b = .ok (decide (b.iSCUpperBound * findB2 a.bits > 16)) := by
  rw [isLong, a.numBits_eq]
  exact if_pos ⟨hge, hlt⟩

theorem isLong_error {b : SizeBounds} (h : 2 ^ 31 ≤ b.iSCUpperBound * findB2 a.bits) :
    ∃ e, isLong a b = .error e := by
  rw [isLong, a.numBits_eq]
  exact ⟨_, if_neg (by omega)⟩

theorem long_aligned (pre : List Bool) {b : SizeBounds}
    (hge : -2 ^ 31 ≤ b.iSCUpperBound * findB2 a.bits)
    (hlt : b.iSCUpperBound * findB2 a.bits < 2 ^ 31) :
    ∃ xs, Puts bAligned pre (alignWriteIfLong a b) xs ∧
      Takes (Unread bAligned) pre.length xs (alignReadIfLong a b) xs.length := by
  unfold alignWriteIfLong alignReadIfLong
  rw [isLong_eq a hge hlt, lift_ok, pure_bind, pure_bind]
  exact aligned_if pre _

/-- The sizes that come back between these bounds. -/
def SizeRecoverable (b : SizeBounds) (size : ℕ) : Prop :=
  b.iSCLowerBound ≤ size ∧ size ≤ b.iSCUpperBound ∧
    b.iSCUpperBound - b.iSCLowerBound + 1 < 2 ^ 31 ∧
    b.iSCUpperBound * findB2 a.bits < 2 ^ 31 ∧
    (size - b.iSCLowerBound).toNat <
      2 ^ carriedBits (b.iSCUpperBound - b.iSCLowerBound).toNat.size

theorem length_deterpret {str : List Octet} {s s' : AsnBufBits} {r : List Octet × ℕ}
    (h : (deterpret a str).run s = .ok (r, s')) : r.1.length = str.length + 1 := by
  unfold deterpret at h
  obtain ⟨bAligned, s₁, -, h⟩ := run_bind_eq_ok h
  obtain ⟨bits, s₂, -, h⟩ := run_bind_eq_ok h
  obtain ⟨seg, s₃, -, h⟩ := run_bind_eq_ok h
  simp only at h
  generalize (if a.ub ≤ 2 ^ bits - 1 then 8 else bits) = len at h
  split at h
  · obtain ⟨rfl, -⟩ := Prod.mk.inj (Except.ok.inj h)
    simp
  · split at h
    · obtain ⟨rfl, -⟩ := Prod.mk.inj (Except.ok.inj h)
      simp
    · cases h

theorem length_deterpretUnits {n : ℕ} {str : List Octet} {s s' : AsnBufBits} {r : List Octet × ℕ}
    (h : (deterpretUnits (deterpret a) n str).run s = .ok (r, s')) :
    r.1.length = str.length + n := by
  induction n generalizing str s s' r with
  | zero =>
      obtain ⟨rfl, -⟩ := Prod.mk.inj (Except.ok.inj h)
      rfl
  | succ n ih =>
      obtain ⟨r₁, s₁, hone, h⟩ := run_bind_eq_ok h
      obtain ⟨r₂, s₂, hrest, h⟩ := run_bind_eq_ok h
      obtain ⟨rfl, -⟩ := Prod.mk.inj (Except.ok.inj h)
      have hlen := ih hrest
      rw [length_deterpret a hone] at hlen
      simp only [hlen]
      omega

theorem length_getChars {b : SizeBounds} {decodeSize : ℤ} {s s' : AsnBufBits}
    {r : List Octet × ℕ} (h : (getChars a b decodeSize).run s = .ok (r, s')) :
    r.1.length = decodeSize.toNat := by
  obtain ⟨pad, s₁, -, h⟩ := run_bind_eq_ok h
  obtain ⟨r₁, s₂, hrest, h⟩ := run_bind_eq_ok h
  obtain ⟨rfl, -⟩ := Prod.mk.inj (Except.ok.inj h)
  rw [length_deterpretUnits a hrest, List.length_nil, Nat.zero_add]

/-- Sizes out of bounds, and bounds that are too far apart or too high. -/
theorem encodeWithBounds_refuses (pre : List Bool) {b : SizeBounds} {str : List Octet}
    (h : b.iSCLowerBound ≤ str.length → str.length ≤ b.iSCUpperBound →
      2 ^ 31 ≤ b.iSCUpperBound - b.iSCLowerBound + 1 ∨ 2 ^ 31 ≤ b.iSCUpperBound * findB2 a.bits) :
    Refuses (Written bAligned) pre (encodeWithBounds a b str) := by
  intro s _
  unfold encodeWithBounds
  cases hrange : b.range with
  | error e => exact ⟨e, rfl⟩
  | ok range =>
      cases hbits : minBitsNeeded (range - 1) with
      | error e =>
          refine ⟨e, ?_⟩
          simp only [lift_ok, pure_bind, hbits]
          rfl
      | ok minBits =>
          simp only [hbits, lift_ok, pure_bind]
          by_cases hout : (str.length : ℤ) < b.iSCLowerBound ∨
              (str.length : ℤ) > b.iSCUpperBound
          · rw [if_pos hout]
            exact ⟨_, rfl⟩
          have hfar : ¬ 2 ^ 31 ≤ b.iSCUpperBound - b.iSCLowerBound + 1 := by
            intro hfar
            rw [SizeBounds.range, if_neg (by omega)] at hrange
            cases hrange
          obtain ⟨e, he⟩ := isLong_error a ((h (by omega) (by omega)).resolve_left hfar)
          rw [if_neg hout]
          unfold putLength putChars alignWriteIfLong
          rw [he]
          split
          · exact ⟨e, rfl⟩
          · exact ⟨e, rfl⟩

theorem encodeWithBounds_recovers_iff (pre : List Bool) {b : SizeBounds} {str : List Octet}
    (hchars : a.Harmless bAligned str)
    (hb₀ : str.length ≤ b.iSCUpperBound → 0 ≤ b.iSCLowerBound) :
    Recovers (Written bAligned) (Unread bAligned) pre (encodeWithBounds a b str)
      (decodeWithBounds a b) (· = str) ↔ SizeRecoverable a b str.length := by
  have hF := bitBuffer_faithful bAligned
  by_cases hin : b.iSCLowerBound ≤ str.length ∧ str.length ≤ b.iSCUpperBound ∧
      b.iSCUpperBound - b.iSCLowerBound + 1 < 2 ^ 31 ∧ b.iSCUpperBound * findB2 a.bits < 2 ^ 31
  swap
  · refine iff_of_false (fun hrec => Recovers.not_refuses hF hrec
      (encodeWithBounds_refuses a pre fun hge hle => ?_)) fun hgood =>
        hin ⟨hgood.1, hgood.2.1, hgood.2.2.1, hgood.2.2.2.1⟩
    by_contra hnear
    rw [not_or, not_le, not_le] at hnear
    exact hin ⟨hge, hle, hnear⟩
  obtain ⟨hge, hle, hnear, hprod⟩ := hin
  have hnonneg : -2 ^ 31 ≤ b.iSCUpperBound * findB2 a.bits :=
    le_trans (by norm_num) (mul_nonneg (le_trans (Int.natCast_nonneg _) hle) (Int.natCast_nonneg _))
  have hrange : b.range = .ok (b.iSCUpperBound - b.iSCLowerBound + 1) := if_pos ⟨by omega, hnear⟩
  have hminBits := @minBitsNeeded_of_lt (b.iSCUpperBound - b.iSCLowerBound) (by omega)
  have hinside : ¬ ((str.length : ℤ) < b.iSCLowerBound ∨
      (str.length : ℤ) > b.iSCUpperBound) := by omega
  unfold encodeWithBounds decodeWithBounds SizeRecoverable
  generalize (b.iSCUpperBound - b.iSCLowerBound).toNat.size = n at hminBits ⊢
  simp only [hrange, add_sub_cancel_right, hminBits, lift_ok, pure_bind, if_neg hinside, hge, hle,
    hnear, hprod, true_and]
  refine sized_recovers_iff pre b n List.length str hge hle (hb₀ hle)
    (choice_carried pre _ n _ (long_aligned a pre hnonneg hprod) (by omega)) (fun pre => ?_)
    fun h => (length_getChars a h).le
  obtain ⟨ps, hpad, hskip⟩ := @long_aligned bAligned a pre b hnonneg hprod
  obtain ⟨ys, hputs, htakes⟩ := @chars_roundTrip bAligned a str hchars 0 str.length
    (Nat.zero_add _).le
  rw [List.drop_zero, List.take_length] at htakes
  refine ⟨ps ++ ys, hpad.add (hputs _), ?_⟩
  refine (hskip.bind ((htakes _ []).bind_pure _)).of_eq ?_ rfl
  rw [List.nil_append, List.length_append]

/-! ### What the encoder leaves behind -/

theorem mapM_eq_self_iff {f : Octet → Except Fault Octet} (str : List Octet) :
    str.mapM f = .ok str ↔ ∀ c ∈ str, f c = .ok c := by
  induction str with
  | nil => exact iff_of_true rfl fun c hc => absurd hc List.not_mem_nil
  | cons c str ih =>
      rw [List.mapM_cons, List.forall_mem_cons, ← ih]
      cases hc : f c with
      | error e => exact iff_of_false (fun h => by cases h) fun h => by cases h.1
      | ok c' =>
          cases hstr : str.mapM f with
          | error e => exact iff_of_false (fun h => by cases h) fun h => by cases h.2
          | ok str' =>
              show Except.ok (c' :: str') = Except.ok (c :: str) ↔ _
              rw [Except.ok.injEq, List.cons.injEq, Except.ok.injEq, Except.ok.injEq]

theorem overwritten_eq_iff (bAligned : Bool) (str : List Octet) :
    overwritten a bAligned str = .ok str ↔
      a.AsIs bAligned ∨ ∀ c ∈ str, a.Kept bAligned c := by
  have hfst (c : Octet) : Prod.fst <$> a.interpretChar bAligned c = .ok c ↔
      ∃ n, a.interpretChar bAligned c = .ok (c, n) := by
    cases a.interpretChar bAligned c with
    | error e => exact iff_of_false (fun h => by cases h) fun ⟨n, h⟩ => by cases h
    | ok r =>
        show Except.ok r.1 = _ ↔ _
        simp [Prod.ext_iff]
  rw [overwritten, mapM_eq_self_iff]
  simp only [hfst]
  by_cases hasis : a.AsIs bAligned
  · exact iff_of_true (fun c _ => ⟨8, a.interpretChar_asIs bAligned hasis c⟩) (Or.inl hasis)
  · rw [or_iff_right hasis]
    exact forall₂_congr fun c _ => a.interpretChar_kept_iff bAligned hasis c

variable {cs : List SizeConstraint} {str : List Octet}

/-- A string that passes the check is encoded as its contents, and its own octets are overwritten
afterwards. -/
theorem pEnc_run {s : AsnBufBits} (hcheck : checkConstraints a cs str = false)
    (hs : s.bAlign = bAligned) :
    (pEnc a cs str).run s = (do
      let len ← encodeContents a cs str
      let str' ← StateT.lift (overwritten a bAligned str)
      return (len, str') : PerM (ℕ × List Octet)).run s := by
  unfold pEnc
  rw [hcheck, ← hs]
  rfl

theorem pEnc_run_eq_ok {s : AsnBufBits} {r : (ℕ × List Octet) × AsnBufBits}
    (h : (pEnc a cs str).run s = .ok r) :
    checkConstraints a cs str = false ∧ overwritten a s.bAlign str = .ok r.1.2 ∧
      (encodeContents a cs str).run s = .ok (r.1.1, r.2) := by
  have hcheck : checkConstraints a cs str = false := by
    by_contra hfails
    unfold pEnc at h
    rw [Bool.not_eq_false] at hfails
    rw [hfails] at h
    cases h
  rw [pEnc_run a hcheck rfl] at h
  obtain ⟨len, s₁, hcontents, h⟩ := @run_bind_eq_ok _ _ _ _ _ _ _ r.2 r.1 h
  obtain ⟨str', s₂, hlift, h⟩ := run_bind_eq_ok h
  obtain ⟨hover, rfl⟩ := lift_run_eq_ok hlift
  obtain ⟨hr, hs⟩ := Prod.mk.inj (Except.ok.inj h)
  obtain ⟨hlen, hstr⟩ := Prod.ext_iff.mp hr
  rw [← hlen, ← hs, ← hstr]
  exact ⟨hcheck, hover, hcontents⟩

theorem recovers_pEnc_iff (pre : List Bool) {dec : ℕ → PerM (List Octet × ℕ)}
    {good : List Octet → Prop} (hcheck : checkConstraints a cs str = false)
    (hover : overwritten a bAligned str = .ok str) :
    Recovers (Written bAligned) (Unread bAligned) pre (pEnc a cs str) dec good ↔
      Recovers (Written bAligned) (Unread bAligned) pre (encodeContents a cs str) dec good := by
  constructor
  · rintro ⟨n, xs, str', henc, hgood, hdec⟩
    refine ⟨n.1, xs, str', fun s hs => ?_, hgood, hdec⟩
    obtain ⟨s', hrun, hs'⟩ := henc s hs
    exact ⟨s', (pEnc_run_eq_ok a hrun).2.2, hs'⟩
  · rintro ⟨n, xs, str', henc, hgood, hdec⟩
    refine ⟨(n, str), xs, str', fun s hs => ?_, hgood, hdec⟩
    obtain ⟨s', hrun, hs'⟩ := henc s hs
    refine ⟨s', ?_, hs'⟩
    rw [pEnc_run a hcheck hs.bAlign, StateT.run_bind, hrun, hover]
    rfl

end AsnString

/-! ### Staying inside the alphabet -/

/-- The call keeps the alignment of the buffer, and does not fail by reading outside the
alphabet. -/
def KeepsInside {A : Type} (bAligned : Bool) : Except Fault (A × AsnBufBits) → Prop
  | .ok r => r.2.bAlign = bAligned
  | .error e => e ≠ outsideAlphabet

/-- No run on a buffer of this alignment reads outside the alphabet. -/
def StaysInside {A : Type} (bAligned : Bool) (m : PerM A) : Prop :=
  ∀ s, s.bAlign = bAligned → KeepsInside bAligned (m.run s)

section Inside

variable {A B : Type}

theorem KeepsInside.bind {r : Except Fault (A × AsnBufBits)}
    {f : A × AsnBufBits → Except Fault (B × AsnBufBits)} (h : KeepsInside bAligned r)
    (hf : ∀ x, x.2.bAlign = bAligned → KeepsInside bAligned (f x)) :
    KeepsInside bAligned (r >>= f) := by
  cases r with
  | error e => exact h
  | ok x => exact hf x h

theorem StaysInside.pure (x : A) : StaysInside bAligned (Pure.pure x) := fun _ hs => hs

theorem StaysInside.bind {m : PerM A} {f : A → PerM B} (h : StaysInside bAligned m)
    (hf : ∀ x, StaysInside bAligned (f x)) : StaysInside bAligned (m >>= f) :=
  fun s hs => KeepsInside.bind (h s hs) fun x hx => hf x.1 x.2 hx

theorem StaysInside.throw {e : Fault} (h : e ≠ outsideAlphabet) :
    StaysInside bAligned (throw e : PerM A) := fun _ _ => h

theorem StaysInside.lift {m : Except Fault A} (h : m ≠ .error outsideAlphabet) :
    StaysInside bAligned (StateT.lift m) := by
  intro s hs
  cases m with
  | error e => exact fun he => h (congrArg _ he)
  | ok x => exact hs

theorem staysInside_isAligned : StaysInside bAligned PerM.isAligned := fun _ hs => hs

theorem staysInside_bitsLeft : StaysInside bAligned PerM.bitsLeft := fun _ hs => hs

theorem staysInside_octetAlignRead : StaysInside bAligned PerM.octetAlignRead := by
  intro s hs
  show (AsnBufBits.octetAlignRead s).2.bAlign = bAligned
  unfold AsnBufBits.octetAlignRead
  split <;> exact hs

theorem keepsInside_readByte {b : AsnBufBits} (hb : b.bAlign = bAligned) :
    KeepsInside bAligned b.readByte := by
  unfold readByte
  split
  · exact hb
  · split
    · exact hb
    · split
      · exact hb
      · exact nofun

theorem keepsInside_getOctet {b : AsnBufBits} (hb : b.bAlign = bAligned) :
    KeepsInside bAligned b.getOctet := by
  refine (keepsInside_readByte hb).bind fun x hx => ?_
  simp only
  split <;> exact hx

theorem keepsInside_getOctets (n : ℕ) {b : AsnBufBits} (hb : b.bAlign = bAligned) :
    KeepsInside bAligned (getOctets n b) := by
  induction n generalizing b with
  | zero => exact hb
  | succ n ih => exact (keepsInside_getOctet hb).bind fun x hx => (ih hx).bind fun y hy => hy

theorem keepsInside_getExtraBits (n : ℕ) {b : AsnBufBits} (hb : b.bAlign = bAligned) :
    KeepsInside bAligned (b.getExtraBits n) := by
  unfold getExtraBits
  split
  · exact hb
  · exact (keepsInside_readByte hb).bind fun x hx => hx

theorem staysInside_getBits (n : ℕ) : StaysInside bAligned (PerM.getBits n) := by
  intro s hs
  show KeepsInside bAligned (AsnBufBits.getBits s n)
  unfold AsnBufBits.getBits
  by_cases hleft : s.ulBitsLeft < n
  · rw [if_pos hleft]
    intro h
    cases h
  · rw [if_neg hleft]
    refine (keepsInside_getOctets _ hs).bind fun x hx => ?_
    by_cases hextra : 0 < n % 8
    · simp only [if_pos hextra]
      exact (keepsInside_getExtraBits _ hx).bind fun y hy => hy
    · simp only [if_neg hextra]
      exact hx

theorem staysInside_deterpretUnits {deterpret : A → PerM (A × ℕ)}
    (h : ∀ acc, StaysInside bAligned (deterpret acc)) (n : ℕ) (acc : A) :
    StaysInside bAligned (deterpretUnits deterpret n acc) := by
  induction n generalizing acc with
  | zero => exact StaysInside.pure _
  | succ n ih => exact (h acc).bind fun x => (ih x.1).bind fun y => StaysInside.pure _

theorem staysInside_decodeFragments {take : ℕ → A → PerM (A × ℕ)}
    (h : ∀ n acc, StaysInside bAligned (take n acc)) (passes : ℕ) (acc : A) (count : ℕ) :
    StaysInside bAligned (decodeFragments PerM.octetAlignRead take passes acc count) := by
  induction passes generalizing acc count with
  | zero => exact StaysInside.throw nofun
  | succ passes ih =>
      refine staysInside_octetAlignRead.bind fun pad => (staysInside_getBits 8).bind fun seg => ?_
      simp only
      split
      · exact staysInside_octetAlignRead.bind fun pad' => (h _ _).bind fun x => ih _ _
      · split
        · exact (staysInside_getBits 8).bind fun low => staysInside_octetAlignRead.bind
            fun pad' => (h _ _).bind fun x => StaysInside.pure _
        · exact staysInside_octetAlignRead.bind fun pad' => (h _ _).bind
            fun x => StaysInside.pure _

theorem staysInside_getSize (n : ℕ) : StaysInside bAligned (getSize n) := by
  refine StaysInside.bind ?_ fun x => (staysInside_getBits _).bind fun seg => ?_
  · unfold getSizeOctet
    split
    · exact (staysInside_getBits 8).bind fun seg => StaysInside.pure _
    · exact StaysInside.pure _
  · split <;> exact StaysInside.pure _

end Inside

namespace AsnString

variable (a : Alphabet) {cs : List SizeConstraint} {str : List Octet}

theorem deterpret_inside (h : a.AsIs bAligned ∨ a.chars.length = 2 ^ a.width bAligned)
    (str : List Octet) : StaysInside bAligned (deterpret a str) := by
  intro s hs
  have haligned : PerM.isAligned.run s = .ok (bAligned, s) := by
    rw [← hs]
    rfl
  unfold deterpret
  rw [run_bind_of_ok haligned, a.indexBits_eq, lift_ok, pure_bind]
  refine KeepsInside.bind (staysInside_getBits _ s hs) fun x hx => ?_
  show KeepsInside bAligned (StateT.run (if a.ub ≤ 2 ^ a.charBits bAligned - 1 then _ else _) x.2)
  by_cases hasis : a.AsIs bAligned
  · rw [if_pos ((a.ub_le_iff bAligned).mpr hasis)]
    exact hx
  · have hcharBits : a.charBits bAligned = a.width bAligned := if_neg hasis
    have hlt : (x.1.headD 0 >>> (8 - a.charBits bAligned)).toNat < a.chars.length := by
      have hpow : 2 ^ (8 - a.width bAligned) * 2 ^ a.width bAligned = 2 ^ 8 := by
        rw [← pow_add, Nat.sub_add_cancel (a.width_le bAligned)]
      rw [h.resolve_left hasis, BitVec.toNat_ushiftRight, Nat.shiftRight_eq_div_pow, hcharBits]
      exact Nat.div_lt_of_lt_mul (hpow ▸ (x.1.headD 0).isLt)
    rw [if_neg (mt (a.ub_le_iff bAligned).mp hasis)]
    show KeepsInside bAligned (StateT.run (match a.chars[(x.1.headD 0 >>>
      (8 - a.charBits bAligned)).toNat]? with | some _ => _ | none => _) x.2)
    rw [List.getElem?_eq_getElem hlt]
    exact hx

/-- The first index without a character is read outside the alphabet. -/
theorem deterpret_outside (h : ¬ (a.AsIs bAligned ∨ a.chars.length = 2 ^ a.width bAligned)) :
    ¬ StaysInside bAligned (deterpret a []) := by
  obtain ⟨hasis, hne⟩ := not_or.mp h
  have hwidth := a.width_le bAligned
  have hlt : a.chars.length < 2 ^ a.width bAligned :=
    lt_of_le_of_ne (a.length_le_width bAligned) hne
  have hlen : ((bitsOf (BitVec.ofNat 8 a.chars.length)).drop (8 - a.width bAligned)).length =
      a.charBits bAligned := by
    rw [List.length_drop, length_bitsOf, Alphabet.charBits, if_neg hasis]
    omega
  obtain ⟨s, hs⟩ := (bitBuffer_faithful bAligned).exists_unread 0
    ((bitsOf (BitVec.ofNat 8 a.chars.length)).drop (8 - a.width bAligned) ++ [])
  obtain ⟨s', -, hrun⟩ := deterpret_run a hlen hs []
  rw [if_neg hasis, natOfBits_drop_ofNat _ hwidth, Nat.mod_eq_of_lt hlt,
    List.getElem?_eq_none le_rfl] at hrun
  intro hinside
  have hkeeps := hinside s hs.bAlign
  rw [hrun] at hkeeps
  exact hkeeps rfl

theorem minBitsFrom_ne_outside (steps : ℕ) (z : ℤ) (n : ℕ) :
    minBitsFrom steps z n ≠ .error outsideAlphabet := by
  induction steps generalizing z n with
  | zero =>
      intro h
      cases h
  | succ steps ih =>
      unfold minBitsFrom intShift
      by_cases hz : 0 < z
      · rw [if_pos hz]
        split
        · exact ih _ _
        · split
          · exact ih _ _
          · exact fun h => absurd (Except.error.inj h) (by decide)
      · rw [if_neg hz]
        intro h
        cases h

theorem staysInside_alignReadIfLong (b : SizeBounds) :
    StaysInside bAligned (alignReadIfLong a b) := by
  refine (StaysInside.lift ?_).bind fun long => staysInside_isAligned.bind fun bAlign => ?_
  · rw [isLong, a.numBits_eq]
    show (if _ then _ else _ : Except Fault Bool) ≠ _
    split
    · exact nofun
    · exact fun h => absurd (Except.error.inj h) (by decide)
  · split
    · exact staysInside_octetAlignRead
    · exact StaysInside.pure _

theorem pDec_inside (h : a.AsIs bAligned ∨ a.chars.length = 2 ^ a.width bAligned)
    (cs : List SizeConstraint) (count : ℕ) : StaysInside bAligned (pDec a cs count) := by
  have hunits := staysInside_deterpretUnits (deterpret_inside a h)
  cases cs with
  | nil => exact staysInside_bitsLeft.bind fun passes => staysInside_decodeFragments hunits _ _ _
  | cons c cs =>
      show StaysInside bAligned (decodeWithBounds a (findSizeConstraintBounds c cs) count)
      unfold decodeWithBounds
      refine (StaysInside.lift ?_).bind fun range => (StaysInside.lift
        (minBitsFrom_ne_outside _ _ _)).bind fun minBits => StaysInside.bind ?_ fun x => ?_
      · unfold SizeBounds.range
        split
        · exact nofun
        · exact fun h => absurd (Except.error.inj h) (by decide)
      · unfold getLength
        split
        · exact (staysInside_alignReadIfLong a _).bind fun pad => (staysInside_getSize _).bind
            fun x => StaysInside.pure _
        · exact StaysInside.pure _
      · simp only
        split
        · exact fun _ _ => show except "String size not withing restricted bounds"
            .restrictedTypeError ≠ outsideAlphabet by decide
        · exact ((staysInside_alignReadIfLong a _).bind fun pad => (hunits _ _).bind
            fun x => StaysInside.pure _).bind fun x => StaysInside.pure _

/-! ### Strings that come back -/

/-- Characters and the whole string come back, the string that is encoded is not changed (so that
the same bits are written the next time), and nothing is read outside the alphabet. -/
structure PackedSafely (cs : List SizeConstraint) (bAligned : Bool) (str : List Octet) :
    Prop where
  char_recovers : ∀ pre offset acc, offset < str.length →
    Recovers (Written bAligned) (Unread bAligned) pre (interpret a str offset)
      (fun count => do
        let (acc, len) ← deterpret a acc
        return (acc, count + len)) (· = acc ++ [str.getD offset 0])
  recovers : ∀ pre, Recovers (Written bAligned) (Unread bAligned) pre (pEnc a cs str) (pDec a cs)
    (· = str)
  unchanged : ∀ s r, s.bAlign = bAligned → (pEnc a cs str).run s = .ok r → r.1.2 = str
  char_inside : ∀ acc, StaysInside bAligned (deterpret a acc)
  inside : ∀ count, StaysInside bAligned (pDec a cs count)

/-- The string passes the check, its size is carried, and its characters stay what they are. -/
structure Intact (cs : List SizeConstraint) (bAligned : Bool) (str : List Octet) : Prop where
  passes : checkConstraints a cs str = false
  size : ∀ c cs', cs = c :: cs' → SizeRecoverable a (findSizeConstraintBounds c cs') str.length
  chars : a.Harmless bAligned str

theorem encodeContents_recovers_iff (pre : List Bool) (hchars : a.Harmless bAligned str)
    (hadmits : cs = [] ∨ ∃ c ∈ cs, c.Admits str.length) :
    Recovers (Written bAligned) (Unread bAligned) pre (encodeContents a cs str) (pDec a cs)
        (· = str) ↔
      ∀ c cs', cs = c :: cs' → SizeRecoverable a (findSizeConstraintBounds c cs') str.length := by
  cases cs with
  | nil => exact iff_of_true (chars_recovers a hchars pre) fun c cs' h => by cases h
  | cons c cs =>
      have hadmits' := hadmits.resolve_left (List.cons_ne_nil c cs)
      refine (encodeWithBounds_recovers_iff a pre hchars (lowerBound_nonneg hadmits')).trans
        ⟨fun h c' cs' heq => ?_, fun h => h c cs rfl⟩
      obtain ⟨rfl, rfl⟩ := List.cons.inj heq
      exact h

theorem Intact.overwritten_eq (h : Intact a cs bAligned str) :
    overwritten a bAligned str = .ok str :=
  (overwritten_eq_iff a bAligned str).mpr (h.chars.imp_right And.right)

theorem packedSafely_iff (hadmits : cs = [] ∨ ∃ c ∈ cs, c.Admits str.length) :
    PackedSafely a cs bAligned str ↔ Intact a cs bAligned str := by
  constructor
  · intro h
    have htable : a.AsIs bAligned ∨ a.chars.length = 2 ^ a.width bAligned := by
      by_contra hnot
      exact deterpret_outside a hnot (h.char_inside [])
    obtain ⟨n, xs, str', henc, -, -⟩ := h.recovers []
    obtain ⟨s, hs⟩ := (bitBuffer_faithful bAligned).exists_written []
    obtain ⟨s', hrun, -⟩ := henc s hs
    obtain ⟨hpasses, hover, -⟩ := pEnc_run_eq_ok a hrun
    have hunchanged := h.unchanged s _ hs.bAlign hrun
    rw [hs.bAlign, hunchanged] at hover
    have hchars : a.Harmless bAligned str :=
      ((overwritten_eq_iff a bAligned str).mp hover).elim Or.inl fun hkept =>
        htable.imp_right fun hfull => ⟨hfull, hkept⟩
    have hrec := (recovers_pEnc_iff a [] hpasses hover).mp (h.recovers [])
    exact ⟨hpasses, (encodeContents_recovers_iff a [] hchars hadmits).mp hrec, hchars⟩
  · intro h
    have htable := h.chars.imp_right And.left
    refine ⟨fun pre offset acc hin => ?_, fun pre => ?_, fun s r hs hrun => ?_,
      deterpret_inside a htable, pDec_inside a htable cs⟩
    · obtain ⟨xs, hchar, hputs, htakes⟩ := char_roundTrip a (c := str.getD offset 0)
        (h.chars.imp_right fun hall => ⟨hall.1, fun c hc => by
          rw [List.mem_singleton.mp hc, List.getD_eq_getElem str 0 hin]
          exact hall.2 _ (List.getElem_mem hin)⟩)
      refine ⟨xs.length, xs, _, puts_interpret a rfl hchar hputs pre, rfl, fun count => ?_⟩
      exact (htakes pre.length acc).bind_pure _
    · rw [recovers_pEnc_iff a pre h.passes h.overwritten_eq]
      exact (encodeContents_recovers_iff a pre h.chars hadmits).mpr h.size
    · have hover := (pEnc_run_eq_ok a hrun).2.1
      rw [hs, h.overwritten_eq] at hover
      exact (Except.ok.inj hover).symm

end AsnString

namespace WideAsnString

variable (getUTF8 : List WChar → List Octet) (permittedAlphabet : List Octet)
  (cs : List SizeConstraint) {wstr : List WChar}

/-- Characters and the whole string come back, and nothing is read outside the alphabet; the
encoder does not write into the string. -/
structure PackedSafely (bAligned : Bool) (wstr : List WChar) : Prop where
  char_recovers : ∀ pre offset acc, offset < wstr.length →
    Recovers (Written bAligned) (Unread bAligned) pre (interpret wstr offset)
      (fun count => do
        let (acc, len) ← deterpret acc
        return (acc, count + len)) (· = acc ++ [wstr.getD offset 0])
  recovers : ∀ pre, Recovers (Written bAligned) (Unread bAligned) pre
    (pEnc getUTF8 permittedAlphabet cs wstr) pDec (· = wstr)
  inside : ∀ count, StaysInside bAligned (pDec count)

theorem deterpret_run_ne_ok {acc : List WChar} {s : AsnBufBits}
    {r : (List WChar × ℕ) × AsnBufBits} : (deterpret acc).run s ≠ .ok r := by
  intro h
  obtain ⟨seg, s₁, -, h⟩ := @run_bind_eq_ok _ _ _ _ _ _ _ r.2 r.1 h
  cases h

theorem deterpret_inside (acc : List WChar) : StaysInside bAligned (deterpret acc) :=
  (staysInside_getBits 4).bind fun _ _ _ =>
    show Fault.undefinedBehaviour "read past the octets of GetBits" ≠ outsideAlphabet by decide

theorem unitCodec_nil (wstr : List WChar) :
    UnitCodec (interpretUnits (interpret wstr)) (deterpretUnits deterpret) (fun _ acc => acc = [])
      0 bAligned where
  stretch pre offset count _ hle := by
    obtain rfl : count = 0 := by omega
    exact ⟨[], Emits.pure pre 0, fun acc hacc => ⟨acc, hacc, Takes.pure _ _⟩⟩
  nothing _ pos acc hacc := ⟨acc, hacc, Takes.pure pos _⟩

/-- Of the wide strings that pass the check, only the empty one comes back. -/
theorem packedSafely_iff
    (hpasses : checkConstraints getUTF8 permittedAlphabet cs wstr = .ok false) :
    PackedSafely getUTF8 permittedAlphabet cs bAligned wstr ↔ wstr = [] := by
  constructor
  · intro h
    by_contra hne
    obtain ⟨n, xs, acc, -, -, htakes⟩ :=
      h.char_recovers [] 0 [] (List.length_pos_iff.mpr hne)
    obtain ⟨s, hs⟩ := (bitBuffer_faithful bAligned).exists_unread 0 (xs ++ [])
    obtain ⟨s', hrun, -⟩ := htakes 0 s [] hs
    obtain ⟨r, s₁, hchar, -⟩ := run_bind_eq_ok hrun
    exact deterpret_run_ne_ok hchar
  · rintro rfl
    refine ⟨fun pre offset acc hin => absurd hin (Nat.not_lt_zero _), fun pre => ?_,
      fun count => staysInside_bitsLeft.bind fun passes =>
        staysInside_decodeFragments (staysInside_deterpretUnits deterpret_inside) _ _ _⟩
    obtain ⟨xs, acc, hputs, hacc, hgets⟩ := Esnacc.general_roundTrip takes_alignment
      (@unitCodec_nil bAligned []) pre (rfl : ([] : List WChar) = [])
    refine ⟨xs.length, xs, acc, ?_, hacc, hgets⟩
    unfold pEnc
    rw [hpasses, lift_ok, pure_bind]
    exact hputs

end WideAsnString

/-- Which restricted character strings survive, of those that satisfy a size constraint, and which
wide ones, of those that pass the check. -/
theorem restrictedStrings_iff (a : Alphabet) (cs : List SizeConstraint) (bAligned : Bool)
    (str : List Octet) (wstr : List WChar) (getUTF8 : List WChar → List Octet)
    (permittedAlphabet : List Octet) (hadmits : cs = [] ∨ ∃ c ∈ cs, c.Admits str.length)
    (hpasses : WideAsnString.checkConstraints getUTF8 permittedAlphabet cs wstr = .ok false) :
    (AsnString.PackedSafely a cs bAligned str ↔ AsnString.Intact a cs bAligned str) ∧
      (WideAsnString.PackedSafely getUTF8 permittedAlphabet cs bAligned wstr ↔ wstr = []) :=
  ⟨AsnString.packedSafely_iff a hadmits,
    WideAsnString.packedSafely_iff getUTF8 permittedAlphabet cs hpasses⟩

/-- Strings of a single bit a character survive. -/
theorem restrictedStrings_iff_at :
    AsnString.PackedSafely ⟨[0, 1], by decide, by decide⟩ [] true [1, 0, 1] :=
  (restrictedStrings_iff ⟨[0, 1], by decide, by decide⟩ [] true [1, 0, 1] []
    (List.map (BitVec.truncate 8)) [] (Or.inl rfl) rfl).1.mpr ⟨by decide, nofun, Or.inl (by decide)⟩

/-- The alphabet of `NumericString`. -/
def numericAlpha : Alphabet :=
  ⟨[0x20, 0x30, 0x31, 0x32, 0x33, 0x34, 0x35, 0x36, 0x37, 0x38, 0x39], by decide, by decide⟩

/-- The digit 5 is a grave accent after it has been encoded, and a wide string of one character
does not come back. -/
theorem not_restrictedStrings :
    (¬ ∀ (a : Alphabet) (cs : List SizeConstraint) (bAligned : Bool) (str : List Octet),
      (∀ c ∈ str, c ∈ a.chars) → (cs = [] ∨ ∃ c ∈ cs, c.Admits str.length) →
        AsnString.PackedSafely a cs bAligned str) ∧
      ¬ ∀ (bAligned : Bool) (wstr : List WChar),
        WideAsnString.checkConstraints (List.map (BitVec.truncate 8)) [] [] wstr = .ok false →
          WideAsnString.PackedSafely (List.map (BitVec.truncate 8)) [] [] bAligned wstr := by
  constructor
  · intro hall
    obtain ⟨r, hrun, hstr⟩ : ∃ r, (AsnString.pEnc numericAlpha [] [0x35]).run (new false) = .ok r ∧
        r.1.2 = [0x60] := ⟨_, rfl, rfl⟩
    have hsafe := hall numericAlpha [] false [0x35] (by decide) (Or.inl rfl)
    have hsame := hsafe.unchanged _ r rfl hrun
    exact absurd (hstr.symm.trans hsame) (by decide)
  · intro hall
    exact absurd ((WideAsnString.packedSafely_iff _ _ _ rfl).mp (hall false [0x41] rfl)) (by decide)

end Esnacc
