import Esnacc.Per.Integer

/-!
The offset of a constrained integer from its lower bound. Whichever form the
range asks for, the bits written for an offset are read as that offset. All
forms write the octets of the offset without superfluous zeros, or the lowest
bits of them.
-/

namespace Esnacc

open BitString StreamCodec AsnBufBits

namespace AsnInt

/-! ### Offsets as octets -/

/-- The octets of a natural number without superfluous zeros. -/
structure Minimal (t : ℕ) (bytes : List Octet) : Prop where
  value : natOfOctets bytes = t
  ne_nil : bytes ≠ []
  reduced : 1 < bytes.length → 256 ^ (bytes.length - 1) ≤ t

theorem Minimal.length_pos {t : ℕ} {bytes : List Octet} (h : Minimal t bytes) : 0 < bytes.length :=
  List.length_pos_iff.mpr h.ne_nil

theorem Minimal.length_le {t k : ℕ} {bytes : List Octet} (h : Minimal t bytes) (hk : 0 < k)
    (ht : t < 256 ^ k) : bytes.length ≤ k := by
  by_contra hlong
  have hle := h.reduced (by omega)
  have hmono : 256 ^ k ≤ 256 ^ (bytes.length - 1) := Nat.pow_le_pow_right (by decide) (by omega)
  omega

/-- The octets fit into the bits that hold the number, but for the first one. -/
theorem Minimal.lt_width {t n : ℕ} {bytes : List Octet} (h : Minimal t bytes) (hn : 0 < n)
    (ht : t < 2 ^ n) : 8 * (bytes.length - 1) < n := by
  rcases Nat.lt_or_ge 1 bytes.length with hlong | hshort
  · have hle := h.reduced hlong
    rw [show 256 = 2 ^ 8 by norm_num, ← pow_mul] at hle
    exact (Nat.pow_lt_pow_iff_right (by decide)).mp (hle.trans_lt ht)
  · have hpos := h.length_pos
    have hone : bytes.length = 1 := by omega
    omega

theorem headD_ne_zero_of_signBit {os : List Octet} (h : signBit os = true) : os.headD 0 ≠ 0 := by
  intro hzero
  rw [signBit, hzero] at h
  simp at h

theorem natOfOctets_withoutLeadingZero (os : List Octet) :
    natOfOctets (withoutLeadingZero os) = natOfOctets os := by
  unfold withoutLeadingZero
  split
  · rename_i h
    cases os with
    | nil => rfl
    | cons o os =>
        have hzero : o = 0 := h.2
        simp [natOfOctets_cons, hzero]
  · rfl

theorem withoutLeadingZero_reduced {pData : List Octet} (h : pData ≠ []) :
    withoutLeadingZero (derOctets pData true) ≠ [] ∧
      ((withoutLeadingZero (derOctets pData true)).length ≤ 1 ∨
        (withoutLeadingZero (derOctets pData true)).headD 0 ≠ 0) := by
  have hne := dropZeros_ne_nil h
  have hreduced := dropZeros_reduced pData
  rw [derOctets_unsigned]
  by_cases hsign : signBit (dropZeros pData) = true
  · -- the sign octet that was added is dropped again
    have hself := dropZeros_eq_self_of_signBit hsign
    rw [hself] at hsign
    have hlong : 1 < (0 :: pData : List Octet).length ∧ (0 :: pData : List Octet).headD 0 = 0 :=
      ⟨Nat.succ_lt_succ (List.length_pos_iff.mpr h), rfl⟩
    rw [hself, if_pos hsign, withoutLeadingZero, if_pos hlong]
    exact ⟨h, Or.inr (headD_ne_zero_of_signBit hsign)⟩
  · rw [if_neg hsign, withoutLeadingZero]
    split
    · rename_i hzero
      refine ⟨?_, ?_⟩
      · rw [← List.length_pos_iff, List.length_tail]
        omega
      · rcases hreduced with hlen | hhead | htail
        · omega
        · exact absurd hzero.2 hhead
        · exact Or.inr (headD_ne_zero_of_signBit htail)
    · rename_i hkeep
      refine ⟨hne, ?_⟩
      by_contra hboth
      exact hkeep ⟨not_le.mp (not_or.mp hboth).1, not_not.mp (not_or.mp hboth).2⟩

theorem natOfOctets_derOctets_unsigned (pData : List Octet) :
    natOfOctets (derOctets pData true) = natOfOctets pData := by
  rw [derOctets_unsigned]
  split
  · simp [natOfOctets_cons]
  · exact natOfOctets_dropZeros pData

theorem pow_le_natOfOctets {os : List Octet} (h : os.headD 0 ≠ 0) :
    256 ^ (os.length - 1) ≤ natOfOctets os := by
  cases os with
  | nil => exact absurd rfl h
  | cons o os =>
      have ho : 1 ≤ o.toNat := by
        refine Nat.one_le_iff_ne_zero.mpr fun hzero => h ?_
        exact BitVec.eq_of_toNat_eq hzero
      rw [natOfOctets_cons, List.length_cons, Nat.add_sub_cancel]
      nlinarith [Nat.one_le_pow os.length 256 (by decide)]

theorem minimal_of_reduced {t : ℕ} {bytes : List Octet} (hvalue : natOfOctets bytes = t)
    (hne : bytes ≠ []) (hreduced : bytes.length ≤ 1 ∨ bytes.headD 0 ≠ 0) : Minimal t bytes := by
  refine ⟨hvalue, hne, fun hlong => ?_⟩
  rcases hreduced with hshort | hhead
  · omega
  · exact hvalue ▸ pow_le_natOfOctets hhead

/-- An offset in the range of an `int` is set to its octets without superfluous
zeros. -/
theorem set_minimal {t : ℕ} (ht : t < 2 ^ 31) :
    ∃ x, set t = .ok x ∧ Minimal t (withoutLeadingZero x.mBytes) := by
  obtain ⟨hset, -, -⟩ := @set_eq (t : ℤ) (by omega) (by exact_mod_cast ht)
  have hpos : decide ((0 : ℤ) ≤ t) = true := by simp
  rw [hpos] at hset
  refine ⟨_, hset, ?_⟩
  have hbytes : bigEndian t ≠ [] := List.cons_ne_nil _ _
  obtain ⟨hne, hreduced⟩ := withoutLeadingZero_reduced hbytes
  refine minimal_of_reduced ?_ hne hreduced
  have hnat := natOfOctets_bigEndian t
  show natOfOctets (withoutLeadingZero (derOctets (bigEndian t) true)) = t
  rw [natOfOctets_withoutLeadingZero, natOfOctets_derOctets_unsigned]
  omega

/-! ### The lowest bits of an offset -/

variable {bAligned : Bool}

/-- The bits in front of the lowest `n` ones do not count below `2 ^ n`. -/
theorem natOfBits_drop {xs : List Bool} {n : ℕ} (hn : n ≤ xs.length)
    (h : natOfBits xs < 2 ^ n) : natOfBits (xs.drop (xs.length - n)) = natOfBits xs := by
  have hlen : (xs.drop (xs.length - n)).length = n := by simp; omega
  have hsplit := natOfBits_append (xs.take (xs.length - n)) (xs.drop (xs.length - n))
  rw [List.take_append_drop, hlen] at hsplit
  have hfront : natOfBits (xs.take (xs.length - n)) = 0 := by
    by_contra hpos
    have hle : 2 ^ n ≤ natOfBits (xs.take (xs.length - n)) * 2 ^ n :=
      Nat.le_mul_of_pos_left _ (Nat.pos_of_ne_zero hpos)
    omega
  rw [hsplit, hfront, Nat.zero_mul, Nat.zero_add]

theorem take_bitsOf_shiftLeft (o : Octet) {n : ℕ} (hn : n ≤ 8) :
    (bitsOf (o <<< (8 - n))).take n = (bitsOf o).drop (8 - n) := by
  rw [bitsOf_shiftLeft _ (by omega), List.take_append_of_le_length (by simp; omega),
    List.take_of_length_le (by simp; omega)]

theorem puts_lowOctet (pre : List Bool) (o : Octet) {n : ℕ} (hn : n ≤ 8) :
    Puts bAligned pre (PerM.putBits [o <<< (8 - n)] n) ((bitsOf o).drop (8 - n)) := by
  refine (emits_putBits pre (by simpa using hn)).of_eq (by simp; omega) ?_
  rw [octetBits_cons, octetBits_nil, List.append_nil, take_bitsOf_shiftLeft o hn]

theorem puts_octets' (pre : List Bool) (bytes : List Octet) :
    Puts bAligned pre (PerM.putBits bytes (bytes.length * 8)) (octetBits bytes) := by
  rw [Nat.mul_comm]
  exact puts_octets pre bytes

theorem puts_putFurtherOctets (pre : List Bool) (bytes : List Octet) :
    Puts bAligned pre (putFurtherOctets bytes) (octetBits bytes.tail) := by
  unfold putFurtherOctets
  split
  · rw [← List.length_tail]
    exact puts_octets' pre bytes.tail
  · have hnone : bytes.tail = [] := by
      rw [← List.length_eq_zero_iff, List.length_tail]
      omega
    rw [hnone]
    exact Emits.pure pre 0

/-- The last `n` bits of the octets, where these begin in the first octet. -/
theorem puts_putOddBits (pre : List Bool) {bytes : List Octet} {n : ℕ} (hne : bytes ≠ [])
    (hgt : 8 * (bytes.length - 1) < n) (hle : n ≤ 8 * bytes.length) :
    Puts bAligned pre (putOddBits bytes n) ((octetBits bytes).drop (8 * bytes.length - n)) := by
  obtain ⟨o, os, rfl⟩ := List.exists_cons_of_ne_nil hne
  rw [List.length_cons] at hgt hle
  unfold putOddBits
  by_cases hodd : n % 8 = 0
  · have hall : 8 * (o :: os).length - n = 0 := by
      rw [List.length_cons]
      omega
    rw [if_pos hodd, hall, List.drop_zero]
    exact puts_octets' pre (o :: os)
  · have hskip : 8 * (o :: os).length - n = 8 - n % 8 := by
      rw [List.length_cons]
      omega
    rw [if_neg hodd, hskip, octetBits_cons, List.drop_append_of_le_length (by simp)]
    exact (puts_lowOctet pre o (by omega)).add (puts_putFurtherOctets _ (o :: os))

/-- The number is written in `n` bits. -/
theorem puts_putLowBits (pre : List Bool) {t n width : ℕ} {bytes : List Octet}
    (h : Minimal t bytes) (hn : 0 < n) (hn32 : n ≤ 32) (ht : t < 2 ^ n)
    (hwidth : n > width ↔ n > 8 * bytes.length) :
    ∃ xs, Puts bAligned pre (putLowBits bytes width n) xs ∧ xs.length = n ∧ natOfBits xs = t := by
  have hpos := h.length_pos
  have hfits := h.lt_width hn ht
  have hlen := length_octetBits bytes
  have hvalue : natOfBits (octetBits bytes) = t := by rw [natOfBits_octetBits, h.value]
  unfold putLowBits putLeadingZeros
  by_cases hwide : n > width
  · have hzeros : Puts bAligned pre (PerM.putBits [0, 0, 0, 0] (n - bytes.length * 8))
        (List.replicate (n - bytes.length * 8) false) := by
      refine (emits_putBits pre (by simp; omega)).of_eq (by simp) ?_
      have hall : octetBits [0, 0, 0, 0] = List.replicate 32 false := by decide
      rw [hall, List.take_replicate, Nat.min_eq_left (by omega)]
    have hoctets := fun pre => @puts_putOddBits bAligned pre bytes (bytes.length * 8) h.ne_nil
      (by omega) (by omega)
    rw [Nat.mul_comm bytes.length 8, Nat.sub_self, List.drop_zero] at hoctets
    rw [if_pos hwide, if_pos hwide, Nat.mul_comm bytes.length 8]
    rw [Nat.mul_comm bytes.length 8] at hzeros
    refine ⟨_, hzeros.add (hoctets _), ?_, ?_⟩
    · rw [List.length_append, List.length_replicate, hlen]
      omega
    · rw [natOfBits_append, natOfBits_replicate_false, hvalue, Nat.zero_mul, Nat.zero_add]
  · have hle : n ≤ 8 * bytes.length := by omega
    have hnone : Puts bAligned pre (pure 0) [] := Emits.pure pre 0
    rw [if_neg hwide, if_neg hwide]
    refine ⟨_, hnone.add (puts_putOddBits _ h.ne_nil hfits hle), ?_, ?_⟩
    · rw [List.nil_append, List.length_drop, hlen]
      omega
    · rw [List.nil_append, ← hlen, natOfBits_drop (by omega) (by rwa [hvalue]), hvalue]

theorem octetBits_shiftSegment {oddBits : ℕ} (h : oddBits ≤ 8) (previous : Octet)
    (os : List Octet) :
    octetBits (shiftSegment oddBits previous os) =
      ((bitsOf previous).drop oddBits ++ octetBits os).take (8 * os.length) := by
  induction os generalizing previous with
  | nil => simp [shiftSegment]
  | cons o os ih =>
      have hlow := bitsOf_shiftLeft previous h
      have hhigh := bitsOf_ushiftRight o (show 8 - oddBits ≤ 8 by omega)
      have hback : 8 - (8 - oddBits) = oddBits := by omega
      rw [hback] at hhigh
      have hjoin : bitsOf (o >>> (8 - oddBits) ||| previous <<< oddBits) =
          (bitsOf previous).drop oddBits ++ (bitsOf o).take oddBits := by
        rw [BitVec.or_comm]
        refine bitsOf_or_of_disjoint ?_ ?_
        · rw [hlow, List.length_take, length_bitsOf, Nat.min_eq_left h]
        · rw [hhigh, List.length_drop, length_bitsOf]
      have hfirst : ((bitsOf previous).drop oddBits ++ (bitsOf o).take oddBits).length = 8 := by
        simp
        omega
      have hsplit : (bitsOf previous).drop oddBits ++ (bitsOf o ++ octetBits os) =
          (bitsOf previous).drop oddBits ++ (bitsOf o).take oddBits ++
            ((bitsOf o).drop oddBits ++ octetBits os) := by
        rw [List.append_assoc, ← List.append_assoc ((bitsOf o).take oddBits),
          List.take_append_drop]
      have hcount : 8 * (os.length + 1) = ((bitsOf previous).drop oddBits ++
          (bitsOf o).take oddBits).length + 8 * os.length := by
        rw [hfirst]
        ring
      rw [shiftSegment, octetBits_cons, hjoin, ih, octetBits_cons, List.length_cons, hsplit, hcount,
        List.take_length_add_append]

/-- What is read in `n` bits is the number they denote. -/
theorem takes_getLowBits (pos : ℕ) (xs : List Bool) :
    Takes (Unread bAligned) pos xs (getLowBits xs.length) (natOfBits xs) := by
  have hdiv := Nat.div_add_mod xs.length 8
  have hpack : natOfOctets (pack xs) =
      natOfBits (xs ++ List.replicate (8 * ((xs.length + 7) / 8) - xs.length) false) := by
    rw [← octetBits_pack, natOfBits_octetBits]
  unfold getLowBits
  by_cases hodd : xs.length % 8 = 0
  · have hlen : (pack xs).length = xs.length / 8 := by
      rw [length_pack]
      omega
    have hpad : 8 * ((xs.length + 7) / 8) - xs.length = 0 := by omega
    rw [hpad, List.replicate_zero, List.append_nil] at hpack
    simp only [if_pos hodd]
    refine ((takes_getBits pos xs).bind_pure _).of_eq ?_ rfl
    rw [← hlen, List.take_left, hpack]
  · have hlen : (pack xs).length = xs.length / 8 + 1 := by
      rw [length_pack]
      omega
    have hshift := octetBits_shiftSegment (show xs.length % 8 ≤ 8 by omega) 0 (pack xs)
    have hzero : (bitsOf (0 : Octet)).drop (xs.length % 8) =
        List.replicate (8 - xs.length % 8) false := by
      rw [show (0 : Octet) = 0#8 from rfl, bitsOf_zero, List.drop_replicate]
    have htotal : 8 * (pack xs).length =
        (List.replicate (8 - xs.length % 8) false ++ xs).length := by
      rw [hlen, List.length_append, List.length_replicate]
      omega
    rw [hzero, octetBits_pack, ← List.append_assoc, htotal, List.take_left] at hshift
    simp only [if_neg hodd]
    refine ((takes_getBits pos xs).bind_pure _).of_eq ?_ rfl
    rw [← hlen, List.take_left, ← natOfBits_octetBits, hshift, natOfBits_append,
      natOfBits_replicate_false, Nat.zero_mul, Nat.zero_add]

/-! ### Aligned octets -/

theorem Minimal.singleton {t : ℕ} {bytes : List Octet} (h : Minimal t bytes) (ht : t < 256) :
    ∃ o, bytes = [o] ∧ o.toNat = t := by
  have hlen := h.length_le Nat.one_pos (by simpa using ht)
  have hpos := h.length_pos
  obtain ⟨o, rfl⟩ := List.length_eq_one_iff.mp (show bytes.length = 1 by omega)
  exact ⟨o, rfl, by simpa using h.value⟩

theorem headD_pack {xs : List Bool} (h₀ : xs ≠ []) (h : xs.length ≤ 8) :
    (pack xs ++ [0]).headD 0 = ofBits xs := by
  rcases Nat.lt_or_eq_of_le h with hlt | heq
  · rw [pack_short h₀ hlt]
    rfl
  · have hpack := pack_append [] heq
    rw [List.append_nil] at hpack
    rw [hpack]
    rfl

/-- Few bits that are read are moved to the end of their octet. -/
theorem toNat_ofBits_ushiftRight {xs : List Bool} (h : xs.length ≤ 8) :
    (ofBits xs >>> (8 - xs.length)).toNat = natOfBits xs := by
  have hback : 8 - (8 - xs.length) = xs.length := by omega
  rw [← natOfBits_bitsOf, bitsOf_ushiftRight _ (by omega), bitsOf_ofBits h, hback,
    List.take_left, natOfBits_append, natOfBits_replicate_false, Nat.zero_mul, Nat.zero_add]

theorem size_pos_le {r n : ℕ} (hr : 0 < r) (h : r < 2 ^ n) : 0 < r.size ∧ r.size ≤ n :=
  ⟨Nat.size_pos.mpr hr, Nat.size_le.mpr h⟩

/-- Ranges of less than 256 values: as few bits as possible. -/
theorem aligned_bits (pre : List Bool) {t r : ℕ} {bytes : List Octet} (h : Minimal t bytes)
    (ht : t ≤ r) (hr₀ : 0 < r) (hr : r + 1 ≤ 255) :
    ∃ xs, Puts bAligned pre (putAligned bytes (r + 1) r.size) xs ∧
      Takes (Unread bAligned) pre.length xs (getAligned (r + 1) r.size) (t, xs.length) := by
  obtain ⟨hpos, hle⟩ := size_pos_le hr₀ (show r < 2 ^ 8 by omega)
  obtain ⟨o, rfl, rfl⟩ := h.singleton (by omega)
  have hlen : ((bitsOf o).drop (8 - r.size)).length = r.size := by simp; omega
  have htake := @takes_getBits bAligned pre.length ((bitsOf o).drop (8 - r.size))
  have hne : (bitsOf o).drop (8 - r.size) ≠ [] := by
    rw [← List.length_pos_iff]
    omega
  have hbits : natOfBits ((bitsOf o).drop (8 - r.size)) = o.toNat := by
    have hlt : natOfBits (bitsOf o) < 2 ^ r.size := by
      rw [natOfBits_bitsOf]
      exact ht.trans_lt (Nat.lt_size_self r)
    have hdrop := natOfBits_drop (by simpa using hle) hlt
    rwa [length_bitsOf, natOfBits_bitsOf] at hdrop
  have hshift := toNat_ofBits_ushiftRight (show ((bitsOf o).drop (8 - r.size)).length ≤ 8 by omega)
  rw [hlen] at htake hshift
  refine ⟨(bitsOf o).drop (8 - r.size), ?_, ?_⟩
  · rw [putAligned, if_pos hr]
    exact puts_lowOctet pre o hle
  · rw [getAligned, if_pos hr]
    refine (htake.bind_pure _).of_eq ?_ rfl
    rw [headD_pack hne (by omega), hshift, hbits, hlen]

/-- 256 values: an aligned octet. -/
theorem aligned_octet (pre : List Bool) {t : ℕ} {bytes : List Octet} (h : Minimal t bytes)
    (ht : t < 256) (n : ℕ) :
    ∃ xs, Puts bAligned pre (putAligned bytes 256 n) xs ∧
      Takes (Unread bAligned) pre.length xs (getAligned 256 n) (t, xs.length) := by
  obtain ⟨o, rfl, rfl⟩ := h.singleton ht
  refine ⟨_, (puts_octetAlignWrite pre).add (puts_octet _ o), ?_⟩
  have hpad : (List.replicate (padding bAligned pre.length) false).length =
    padding bAligned pre.length := List.length_replicate
  refine ((takes_octetAlignRead pre.length hpad).bind ((takes_octet _ o).bind_pure _)).of_eq ?_ rfl
  simp

/-- The octets of an offset below `2 ^ 16`, filled up to two. -/
theorem puts_putHighOctet (pre : List Bool) {t : ℕ} {bytes : List Octet} (h : Minimal t bytes)
    (ht : t < 65536) :
    ∃ os, (os ++ bytes).length = 2 ∧ natOfOctets (os ++ bytes) = t ∧
      Puts bAligned pre (putHighOctet bytes) (octetBits os) := by
  have hpos := h.length_pos
  have hle := h.length_le (show 0 < 2 by decide) (by simpa using ht)
  unfold putHighOctet
  by_cases hone : bytes.length < 2
  · refine ⟨[0], by simp; omega, ?_, ?_⟩
    · rw [natOfOctets_append, h.value]
      simp
    · rw [if_pos hone]
      exact puts_octets pre [0]
  · refine ⟨[], by simp; omega, h.value, ?_⟩
    rw [if_neg hone]
    exact Emits.pure pre 0

/-- Up to 64k values: two aligned octets. -/
theorem aligned_twoOctets (pre : List Bool) {t r : ℕ} {bytes : List Octet} (h : Minimal t bytes)
    (ht : t < 65536) (hr : 256 < r ∧ r < 65536) (n : ℕ) :
    ∃ xs, Puts bAligned pre (putAligned bytes r n) xs ∧
      Takes (Unread bAligned) pre.length xs (getAligned r n) (t, xs.length) := by
  obtain ⟨hlow, hhigh⟩ := hr
  obtain ⟨os, htwo, hvalue, hos⟩ := @puts_putHighOctet bAligned
    (pre ++ List.replicate (padding bAligned pre.length) false) t bytes h ht
  have hpad : (List.replicate (padding bAligned pre.length) false).length =
    padding bAligned pre.length := List.length_replicate
  have hputs := ((puts_octetAlignWrite pre).add hos).add (puts_octets' _ bytes)
  have hread := @takes_octets bAligned (pre.length + padding bAligned pre.length)
    (os ++ bytes)
  rw [htwo] at hread
  refine ⟨List.replicate (padding bAligned pre.length) false ++ octetBits os ++ octetBits bytes,
    ?_, ?_⟩
  · rw [putAligned, if_neg (by omega), if_neg (by omega), if_pos hhigh]
    simpa only [bind_assoc, pure_bind] using hputs
  · rw [getAligned, if_neg (by omega), if_neg (by omega), if_pos hhigh, List.append_assoc,
      ← octetBits_append]
    refine ((takes_octetAlignRead pre.length hpad).bind ?_).of_eq rfl rfl
    rw [hpad]
    refine (hread.bind_pure _).of_eq ?_ rfl
    rw [← htwo, List.take_left, hvalue, List.length_append, length_octetBits, htwo, hpad]

/-- The length of an offset takes two or three bits. -/
theorem lengthBits_eq {n : ℕ} (hn : 16 ≤ n) (hn31 : n ≤ 31) :
    lengthBits n = 2 ∨ lengthBits n = 3 := by
  have hsome : n / 8 % 8 ≠ 0 := by omega
  rw [lengthBits, if_pos hsome]
  omega

/-- From 64k values on: the number of octets, less one, and the octets. -/
theorem aligned_counted (pre : List Bool) {t r : ℕ} {bytes : List Octet} (h : Minimal t bytes)
    (ht : t ≤ r) (hr : 65536 ≤ r + 1) (hr31 : r < 2 ^ 31) :
    ∃ xs, Puts bAligned pre (putAligned bytes (r + 1) r.size) xs ∧
      Takes (Unread bAligned) pre.length xs (getAligned (r + 1) r.size) (t, xs.length) := by
  have hpos := h.length_pos
  have hle := h.length_le (show 0 < 4 by decide) (by omega)
  have hwidth : lengthBits r.size = 2 ∨ lengthBits r.size = 3 :=
    lengthBits_eq (Nat.lt_size.mpr (by omega)) (Nat.size_le.mpr hr31)
  obtain ⟨tempInt2, hset, hcount⟩ := @set_minimal (bytes.length - 1) (by omega)
  have hone := hcount.length_pos
  have hfits : bytes.length - 1 < 2 ^ lengthBits r.size := by
    rcases hwidth with hw | hw <;> rw [hw] <;> omega
  obtain ⟨ys, hys, hlen, hvalue⟩ := @puts_putLowBits bAligned pre _ _ (bytes.length * 8) _ hcount
    (show 0 < lengthBits r.size by omega) (by omega) hfits (by omega)
  have hcast : ((bytes.length - 1 : ℕ) : ℤ) = (bytes.length : ℤ) - 1 := by omega
  have hne : ys ≠ [] := by
    rw [← List.length_pos_iff]
    omega
  have hhead := toNat_ofBits_ushiftRight (show ys.length ≤ 8 by omega)
  have hfirst : (pack ys ++ [0]).headD 0 = ofBits ys := headD_pack hne (by omega)
  have hnumBytes : (ofBits ys >>> (8 - lengthBits r.size % 8)).toNat + 1 = bytes.length := by
    have hmod : lengthBits r.size % 8 = ys.length := by omega
    rw [hmod, hhead, hvalue]
    omega
  have hread := @takes_getBits bAligned pre.length ys
  rw [hlen] at hread
  refine ⟨ys ++ octetBits bytes, ?_, ?_⟩
  · rw [putAligned, if_neg (by omega), if_neg (by omega), if_neg (by omega), ← hcast, hset]
    exact hys.add (puts_octets' _ bytes)
  · rw [getAligned, if_neg (by omega), if_neg (by omega), if_neg (by omega)]
    refine (hread.bind ?_).of_eq rfl rfl
    simp only [hfirst, hnumBytes, if_neg (show ¬ 4 < bytes.length by omega)]
    rw [Nat.mul_comm bytes.length 8]
    refine ((takes_octets _ bytes).bind_pure _).of_eq ?_ rfl
    rw [List.take_left, h.value, List.length_append, length_octetBits, hlen]

/-- The offset is read as it was written, whichever form the range asks for. -/
theorem offset_roundTrip (pre : List Bool) {t r : ℕ} {bytes : List Octet} (h : Minimal t bytes)
    (ht : t ≤ r) (hr₀ : 0 < r) (hr31 : r < 2 ^ 31) :
    ∃ xs, Puts bAligned pre
        (if bAligned then putAligned bytes (r + 1) r.size
          else putLowBits bytes (bytes.length * 8) r.size) xs ∧
      Takes (Unread bAligned) pre.length xs (getOffset bAligned (r + 1) r.size) (t, xs.length) := by
  have hlt : t < 2 ^ r.size := ht.trans_lt (Nat.lt_size_self r)
  obtain ⟨hpos, hle⟩ := size_pos_le hr₀ hr31
  unfold getOffset
  cases bAligned with
  | false =>
      obtain ⟨xs, hxs, hlen, rfl⟩ := @puts_putLowBits false pre _ _ (bytes.length * 8) _ h hpos
        (by omega) hlt (by omega)
      rw [← hlen] at hxs ⊢
      exact ⟨xs, hxs, (takes_getLowBits pre.length xs).bind_pure _⟩
  | true =>
      simp only [if_true]
      rcases Nat.lt_or_ge (r + 1) 256 with hbits | hoctets
      · exact aligned_bits pre h ht hr₀ (by omega)
      rcases Nat.lt_or_ge (r + 1) 65536 with hshort | hlong
      · rcases Nat.lt_or_eq_of_le hoctets with hmore | hone
        · exact aligned_twoOctets pre h (by omega) ⟨hmore, hshort⟩ r.size
        · rw [← hone]
          exact aligned_octet pre h (by omega) r.size
      · exact aligned_counted pre h ht hlong hr31

end AsnInt

end Esnacc
