import Esnacc.Lib.BitString

/-!
`AsnOcts` and `AsnBits`: octet strings and bit strings. A bit string keeps its
octets and the number of bits that count; it can follow the rules for named
bits, under which trailing zero bits do not belong to the value.
-/

namespace Esnacc

open BitString

/-- The file segment that could replace `m_str` is never set. -/
@[ext]
structure AsnOcts where
  mStr : List Octet
  deriving DecidableEq, Repr

/-- No octets stand for `bits == NULL`. Whoever sets `bitLen` allocates octets
for that many bits. -/
structure AsnBits where
  bits : List Octet
  bitLen : ℕ
  nblFlag : Bool
  allocated : bitLen ≤ 8 * bits.length
  deriving DecidableEq, Repr

namespace AsnBits

/-- The bits of the string. -/
def value (x : AsnBits) : List Bool := (octetBits x.bits).take x.bitLen

@[simp] theorem length_value (x : AsnBits) : x.value.length = x.bitLen := by
  simpa [value] using x.allocated

/-- `clear`. The rules for named bits stay. -/
def clear (x : AsnBits) : AsnBits := ⟨[], 0, x.nblFlag, Nat.zero_le _⟩

/-- `length`: the octets that hold a bit of the string. -/
def length (x : AsnBits) : ℕ := (x.bitLen + 7) / 8

/-! ### The encoded length -/

/-- The last octet with a bit of the string. -/
def lastOctet (bitLen : ℕ) : ℕ :=
  if bitLen ≤ 8 then 0 else if bitLen % 8 = 0 then bitLen / 8 - 1 else bitLen / 8

/-- Loops backwards to an octet that has a bit set, or to the first one. -/
def finalOctet (bits : List Octet) : ℕ → ℕ
  | 0 => 0
  | n + 1 => if bits.getD (n + 1) 0 = 0 then finalOctet bits n else n + 1

/-- Counts the unset bits at the end of an octet. -/
def unusedBits (o : Octet) : ℕ := ((List.range 8).takeWhile fun i => ! o.getLsbD i).length

/-- `encLen`: for named bits the length up to the last bit that is set. -/
def encLen (x : AsnBits) : ℕ :=
  if x.nblFlag then
    let final := if x.bits ≠ [] then finalOctet x.bits (lastOctet x.bitLen) else lastOctet x.bitLen
    if x.bits = [] ∨ final = 0 ∧ x.bits.getD 0 0 = 0 then 0
    else (final + 1) * 8 - unusedBits (x.bits.getD final 0)
  else x.bitLen

theorem encLen_of_plain {x : AsnBits} (h : x.nblFlag = false) : x.encLen = x.bitLen := by
  simp [encLen, h]

/-- The octets behind the last bit of the string do not have a bit set. -/
def TailClear (x : AsnBits) : Prop := ∀ b ∈ (octetBits x.bits).drop x.bitLen, b = false

theorem finalOctet_le (bits : List Octet) (n : ℕ) : finalOctet bits n ≤ n := by
  induction n with
  | zero => exact le_rfl
  | succ n ih =>
      rw [finalOctet]
      split
      · exact ih.trans (Nat.le_succ n)
      · exact le_rfl

/-- Behind the octet that is found there are only zeros. -/
theorem getD_eq_zero_of_finalOctet_lt {bits : List Octet} {n i : ℕ} (h : finalOctet bits n < i)
    (hi : i ≤ n) : bits.getD i 0 = 0 := by
  induction n with
  | zero => omega
  | succ n ih =>
      rw [finalOctet] at h
      split at h
      · rename_i hzero
        rcases Nat.lt_or_eq_of_le hi with hlt | rfl
        · exact ih h (by omega)
        · exact hzero
      · omega

theorem finalOctet_eq_zero_or (bits : List Octet) (n : ℕ) :
    finalOctet bits n = 0 ∨ bits.getD (finalOctet bits n) 0 ≠ 0 := by
  induction n with
  | zero => exact Or.inl rfl
  | succ n ih =>
      rw [finalOctet]
      split
      · exact ih
      · rename_i hne
        exact Or.inr hne

theorem lastOctet_lt {bits : List Octet} {bitLen : ℕ} (h₀ : bits ≠ [])
    (h : bitLen ≤ 8 * bits.length) : lastOctet bitLen < bits.length := by
  have hpos : 0 < bits.length := List.length_pos_iff.mpr h₀
  unfold lastOctet
  split
  · exact hpos
  · split <;> omega

theorem le_lastOctet (bitLen : ℕ) : bitLen ≤ 8 * (lastOctet bitLen + 1) := by
  unfold lastOctet
  split
  · omega
  · split <;> omega

/-- An octet up to the last bit that is set. -/
theorem bitsOf_eq_append_unused {o : Octet} (h : o ≠ 0) :
    unusedBits o < 8 ∧ bitsOf o =
      (bitsOf o).take (7 - unusedBits o) ++ (true :: List.replicate (unusedBits o) false) := by
  revert o
  decide

/-- The value without its trailing zero bits, which is what named bits denote. -/
def namedValue (x : AsnBits) : List Bool := x.value.rdropWhile (! ·)

theorem rdropWhile_append_clear {xs ys : List Bool} (h : ∀ b ∈ ys, b = false) :
    (xs ++ true :: ys).rdropWhile (! ·) = xs ++ [true] := by
  have hys : ∀ b ∈ ys.reverse, (! b) = true := by
    intro b hb
    rw [h b (List.mem_reverse.mp hb)]
    rfl
  rw [List.rdropWhile, List.reverse_append, List.reverse_cons, List.append_assoc,
    List.dropWhile_append_of_pos hys]
  simp

/-- Where the bits behind the encoded length are clear and the one in front of it
is set, the encoded length cuts off the trailing zeros. -/
theorem take_eq_rdropWhile {X front rest : List Bool} {n : ℕ} (hX : X = front ++ true :: rest)
    (hrest : ∀ b ∈ rest, b = false) (hn : front.length < n) :
    (X.take n).rdropWhile (! ·) = front ++ [true] := by
  obtain ⟨m, rfl⟩ : ∃ m, n = front.length + (m + 1) := ⟨n - front.length - 1, by omega⟩
  rw [hX, List.take_length_add_append, List.take_succ_cons]
  exact rdropWhile_append_clear fun b hb => hrest b (List.mem_of_mem_take hb)

theorem eq_false_of_mem_octetBits {os : List Octet} (h : ∀ o ∈ os, o = 0) :
    ∀ b ∈ octetBits os, b = false := by
  intro b hb
  obtain ⟨o, ho, hbo⟩ := List.mem_flatMap.mp hb
  rw [h o ho, show (0 : Octet) = 0#8 from rfl, bitsOf_zero] at hbo
  exact List.eq_of_mem_replicate hbo

/-- No bit is set behind the final octet. -/
theorem TailClear.behind_final {x : AsnBits} (htail : x.TailClear) :
    ∀ b ∈ octetBits (x.bits.drop (finalOctet x.bits (lastOctet x.bitLen) + 1)), b = false := by
  intro b hb
  have hle := finalOctet_le x.bits (lastOctet x.bitLen)
  have hsplit : x.bits.drop (finalOctet x.bits (lastOctet x.bitLen) + 1) =
      (x.bits.drop (finalOctet x.bits (lastOctet x.bitLen) + 1)).take
        (lastOctet x.bitLen - finalOctet x.bits (lastOctet x.bitLen)) ++
      x.bits.drop (lastOctet x.bitLen + 1) := by
    rw [← List.take_append_drop (lastOctet x.bitLen - finalOctet x.bits (lastOctet x.bitLen))
      (x.bits.drop (finalOctet x.bits (lastOctet x.bitLen) + 1)), List.drop_drop]
    congr 2
    · simp
    · omega
  rw [hsplit, octetBits_append, List.mem_append] at hb
  rcases hb with hb | hb
  · refine eq_false_of_mem_octetBits ?_ b hb
    intro o ho
    obtain ⟨i, hi, rfl⟩ := List.mem_iff_getElem.mp ho
    rw [List.length_take, List.length_drop] at hi
    rw [List.getElem_take, List.getElem_drop]
    have hzero : x.bits.getD (finalOctet x.bits (lastOctet x.bitLen) + 1 + i) 0 = 0 :=
      getD_eq_zero_of_finalOctet_lt (n := lastOctet x.bitLen) (by omega) (by omega)
    rwa [List.getD_eq_getElem _ _ (by omega)] at hzero
  · rw [octetBits_drop] at hb
    have hlen := le_lastOctet x.bitLen
    refine htail b ?_
    rw [← Nat.add_sub_cancel' hlen, ← List.drop_drop] at hb
    exact List.mem_of_mem_drop hb

theorem take_encLen_of_named {x : AsnBits} (hnbl : x.nblFlag = true) (htail : x.TailClear) :
    (octetBits x.bits).take x.encLen = x.namedValue := by
  by_cases hnull : x.bits = []
  · simp [encLen, hnbl, namedValue, value, hnull]
  have hlast := lastOctet_lt hnull x.allocated
  have hle := finalOctet_le x.bits (lastOctet x.bitLen)
  have hclear := htail.behind_final
  obtain ⟨f, hf⟩ : ∃ f, f = finalOctet x.bits (lastOctet x.bitLen) := ⟨_, rfl⟩
  rw [← hf] at hclear hle
  have hlt : f < x.bits.length := by omega
  have hbits : octetBits x.bits = octetBits (x.bits.take f) ++
      (bitsOf (x.bits.getD f 0) ++ octetBits (x.bits.drop (f + 1))) := by
    rw [← octetBits_cons, ← octetBits_append, List.getD_eq_getElem _ _ hlt,
      ← List.drop_eq_getElem_cons hlt, List.take_append_drop]
  by_cases hzero : f = 0 ∧ x.bits.getD 0 0 = 0
  · -- no bit is set at all
    have hall : ∀ b ∈ x.value, (! b) = true := by
      intro b hb
      have hmem := List.mem_of_mem_take hb
      rw [hbits, hzero.1, hzero.2, List.take_zero, octetBits_nil, List.nil_append,
        List.mem_append] at hmem
      rcases hmem with hmem | hmem
      · rw [show (0 : Octet) = 0#8 from rfl, bitsOf_zero] at hmem
        rw [List.eq_of_mem_replicate hmem]
        rfl
      · rw [hclear b (by rwa [hzero.1])]
        rfl
    have hlen : x.encLen = 0 := by
      rw [encLen, if_pos hnbl]
      simp only [if_pos hnull, ne_eq, ← hf]
      exact if_pos (Or.inr hzero)
    rw [hlen, namedValue, List.take_zero]
    exact (List.rdropWhile_eq_nil_iff.mpr hall).symm
  · have hset : x.bits.getD f 0 ≠ 0 := by
      rcases finalOctet_eq_zero_or x.bits (lastOctet x.bitLen) with h | h
      · rw [← hf] at h
        intro hz
        exact hzero ⟨h, by rwa [h] at hz⟩
      · rwa [← hf] at h
    obtain ⟨hunused, hoctet⟩ := bitsOf_eq_append_unused hset
    obtain ⟨u, hu⟩ : ∃ u, u = unusedBits (x.bits.getD f 0) := ⟨_, rfl⟩
    rw [← hu] at hunused hoctet
    have hlen : x.encLen = (f + 1) * 8 - u := by
      rw [encLen, if_pos hnbl]
      simp only [if_pos hnull, ne_eq, ← hf]
      rw [if_neg (not_or.mpr ⟨hnull, hzero⟩), hu]
    obtain ⟨front, hfront⟩ : ∃ front, front = octetBits (x.bits.take f) ++
        (bitsOf (x.bits.getD f 0)).take (7 - u) := ⟨_, rfl⟩
    have hfrontLen : front.length = 8 * f + (7 - u) := by
      simp [hfront]
      omega
    have hX : octetBits x.bits = front ++
        true :: (List.replicate u false ++ octetBits (x.bits.drop (f + 1))) := by
      rw [hbits, hfront]
      nth_rewrite 1 [hoctet]
      simp only [List.append_assoc, List.cons_append]
    have hrest : ∀ b ∈ List.replicate u false ++ octetBits (x.bits.drop (f + 1)), b = false := by
      intro b hb
      rcases List.mem_append.mp hb with hb | hb
      · exact List.eq_of_mem_replicate hb
      · exact hclear b hb
    have hbitLen : front.length < x.bitLen := by
      by_contra hge
      have hset := htail true (by
        rw [hX, List.drop_append_of_le_length (not_lt.mp hge)]
        exact List.mem_append_right _ List.mem_cons_self)
      cases hset
    have hencLen : x.encLen = front.length + 1 := by omega
    rw [namedValue, value, take_eq_rdropWhile hX hrest hbitLen, hX, hencLen,
      List.take_length_add_append]
    rfl

/-- The encoded length stays within the octets. -/
theorem encLen_le (x : AsnBits) : x.encLen ≤ 8 * x.bits.length := by
  by_cases hnbl : x.nblFlag = true
  · by_cases hnull : x.bits = []
    · simp [encLen, hnbl, hnull]
    · have hlast := lastOctet_lt hnull x.allocated
      have hle := finalOctet_le x.bits (lastOctet x.bitLen)
      rw [encLen, if_pos hnbl]
      simp only [if_pos hnull, ne_eq]
      split
      · exact Nat.zero_le _
      · omega
  · rw [encLen, if_neg hnbl]
    exact x.allocated

end AsnBits

end Esnacc
