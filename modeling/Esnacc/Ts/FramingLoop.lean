import Esnacc.Ts.FramingReading
import Esnacc.Lib.TwosComplement

/-!
What one pass of the loop of `handleFraming` does, by what the buffer starts with.
-/

namespace Esnacc.Ts

open BitString

/-! ### JavaScript -/

theorem relativeIndex_nat {length n : ℕ} (h : n ≤ length) : relativeIndex length n = n := by
  rw [relativeIndex, if_neg (by omega)]
  omega

theorem subarray_nat {b : List Octet} {i j : ℕ} (hi : i ≤ b.length) (hj : j ≤ b.length) :
    subarray b i j = (b.drop i).take (j - i) := by
  rw [subarray, relativeIndex_nat hi, relativeIndex_nat hj, List.drop_take]

theorem subarrayFrom_nat {b : List Octet} {i : ℕ} (hi : i ≤ b.length) :
    subarrayFrom b i = b.drop i := by
  rw [subarrayFrom, relativeIndex_nat hi]

theorem subarrayFrom_one (b : List Octet) : subarrayFrom b 1 = b.tail := by
  cases b with
  | nil => rfl
  | cons o rest =>
      rw [← Nat.cast_one, subarrayFrom_nat (by simp), List.drop_one]

theorem parseInt_digits {cs : List ℕ} (hne : cs ≠ []) (h : ∀ c ∈ cs, isDigit c = true) :
    parseInt cs = some (decimal cs : ℤ) := by
  obtain ⟨c, rest, rfl⟩ := List.exists_cons_of_ne_nil hne
  have hc : 48 ≤ c ∧ c ≤ 57 := by simpa [isDigit] using h c List.mem_cons_self
  have hspace : isWhiteSpace c = false := by
    simp only [isWhiteSpace, Bool.or_eq_false_iff, Bool.and_eq_false_iff, decide_eq_false_iff_not]
    omega
  have hdrop : (c :: rest).dropWhile isWhiteSpace = c :: rest := by
    rw [List.dropWhile_cons, hspace]
    rfl
  have hsign : ¬(c :: rest).head? = some 45 := by
    simp only [List.head?_cons, Option.some.injEq]
    omega
  have hplus : ¬(c :: rest).head? = some 43 := by
    simp only [List.head?_cons, Option.some.injEq]
    omega
  have htake : (c :: rest).takeWhile isDigit = c :: rest := List.takeWhile_eq_self_iff.2 h
  simp only [parseInt, hdrop, hsign, hplus, htake, or_self, if_false]
  rfl

theorem map_asciiCode {os : List Octet} (h : os.all isDigitOctet = true) :
    os.map asciiCode = os.map BitVec.toNat := by
  apply List.map_congr_left
  intro o ho
  have hdigit : 48 ≤ o.toNat ∧ o.toNat ≤ 57 := by
    simpa [isDigitOctet, isDigit] using List.all_eq_true.1 h o ho
  rw [asciiCode]
  omega

/-! ### JSON frames -/

theorem tryConsumeJsonFrame_eq (b : List Octet) : tryConsumeJsonFrame b =
    match jsonHeader b with
    | .frame f n => (some f, b.drop n)
    | .badDigits => (none, b.tail)
    | .laxDigits n =>
        if b.length < 8 + n then (none, b) else (some ((b.drop 8).take n), b.drop (8 + n))
    | _ => (none, b) := by
  by_cases hshort : b.length < 8
  · rw [tryConsumeJsonFrame, if_pos (show b.length < jsonHeaderSize from hshort), jsonHeader,
      if_pos hshort]
  have hchars : (subarray b 1 jsonHeaderSize).map asciiCode =
      ((b.drop 1).take 7).map asciiCode := by
    have hsub := @subarray_nat b 1 8 (by omega) (by omega)
    rw [Nat.cast_one] at hsub
    exact congrArg (List.map asciiCode) hsub
  -- the header says this length, and the whole frame may have arrived
  have hlength (n : ℕ) : (if (b.length : ℤ) < jsonHeaderSize + (n : ℤ) then
      ((none : Option Frame), b)
      else (some (subarray b jsonHeaderSize (jsonHeaderSize + n)),
        subarrayFrom b (jsonHeaderSize + n))) =
      if b.length < 8 + n then (none, b) else (some ((b.drop 8).take n), b.drop (8 + n)) := by
    have hcast : ((jsonHeaderSize : ℤ) + n) = ((8 + n : ℕ) : ℤ) := by
      push_cast
      rfl
    by_cases hwait : b.length < 8 + n
    · rw [if_pos (by rw [hcast]; exact_mod_cast hwait), if_pos hwait]
    · rw [if_neg (by rw [hcast]; exact_mod_cast hwait), if_neg hwait, hcast,
        subarrayFrom_nat (by omega)]
      have hsub := @subarray_nat b 8 (8 + n) (by omega) (by omega)
      rw [Nat.add_sub_cancel_left] at hsub
      rw [show (jsonHeaderSize : ℤ) = ((8 : ℕ) : ℤ) from rfl, hsub]
  simp only [tryConsumeJsonFrame, jsonHeader, if_neg (show ¬b.length < jsonHeaderSize from hshort),
    if_neg hshort, hchars]
  by_cases hall : ((b.drop 1).take 7).all isDigitOctet = true
  · have hne : ((b.drop 1).take 7).map BitVec.toNat ≠ [] := by
      intro hnil
      have hzero := congrArg List.length hnil
      simp only [List.length_map, List.length_take, List.length_drop, List.length_nil] at hzero
      omega
    have hparse := parseInt_digits hne (by
      intro c hc
      obtain ⟨o, ho, rfl⟩ := List.mem_map.1 hc
      exact List.all_eq_true.1 hall o ho)
    rw [map_asciiCode hall, hparse, if_pos hall]
    have hnonneg : ¬((decimal (((b.drop 1).take 7).map BitVec.toNat) : ℕ) : ℤ) < 0 := by omega
    simp only [if_neg hnonneg]
    rw [hlength]
    split <;> rfl
  · rw [if_neg hall]
    cases hparse : parseInt (((b.drop 1).take 7).map asciiCode) with
    | none => simp only [subarrayFrom_one]
    | some n =>
        by_cases hneg : n < 0
        · simp only [if_pos hneg, subarrayFrom_one]
        · simp only [if_neg hneg]
          have hn : n = (n.toNat : ℤ) := by omega
          rw [hn, hlength, Int.toNat_natCast]

/-! ### ROSE frames -/

theorem toNat_berLengthValue {bytes : List Octet} (h : bytes.length ≤ 4) :
    (berLengthValue bytes).toNat = natOfOctets bytes := by
  have hlt : natOfOctets bytes < 2 ^ 32 := by
    have hpow : (256 : ℕ) ^ bytes.length ≤ 256 ^ 4 := Nat.pow_le_pow_right (by decide) h
    exact lt_of_lt_of_le (natOfOctets_lt bytes) hpow
  have hzero : (0 : BitVec 32).toNat = 0 := rfl
  rw [berLengthValue, toNat_foldl_shiftLeft_or, hzero, Nat.zero_mul, Nat.zero_add,
    Nat.mod_eq_of_lt hlt]

theorem toInt_berLengthValue {bytes : List Octet} (h : bytes.length ≤ 4) :
    (berLengthValue bytes).toInt =
      if natOfOctets bytes < 2 ^ 31 then (natOfOctets bytes : ℤ)
      else natOfOctets bytes - 2 ^ 32 := by
  rw [BitVec.toInt_eq_toNat_cond, toNat_berLengthValue h]
  split <;> split <;> omega

theorem parseBerLength_cons (first l : Octet) (rest : List Octet) :
    parseBerLength (first :: l :: rest) 1 =
      if l.toNat < 128 then .ok (some (l.toNat, 1))
      else if l.toNat - 128 = 0 ∨ 4 < l.toNat - 128 then .error ⟨l⟩
      else if rest.length < l.toNat - 128 then .ok none
      else .ok (some ((berLengthValue (rest.take (l.toNat - 128))).toInt,
        1 + (l.toNat - 128))) := by
  have hlt := l.isLt
  have hand : l &&& 0x80#8 = 0 ↔ l.toNat < 128 := by
    revert l
    decide
  have hlow : 128 ≤ l.toNat → (l &&& 0x7F#8).toNat = l.toNat - 128 := by
    revert l
    decide
  rw [parseBerLength]
  simp only [List.getElem?_cons_succ, List.getElem?_cons_zero]
  by_cases hshort : l.toNat < 128
  · rw [if_pos (hand.2 hshort), if_pos hshort]
  · rw [if_neg (mt hand.1 hshort), if_neg hshort, hlow (by omega)]
    have hcond : (first :: l :: rest).length < 1 + 1 + (l.toNat - 128) ↔
        rest.length < l.toNat - 128 := by
      simp only [List.length_cons]
      omega
    simp only [hcond]
    rfl

/-- The end of `tryConsumeBerFrame`, for a total length that is not negative. -/
theorem cut_eq (b : List Octet) {total : ℤ} {n : ℕ} (h : total = n) :
    (if (b.length : ℤ) < total then (.ok (none, b) : Except LengthError (Option Frame × List Octet))
      else .ok (some (subarray b 0 total), subarrayFrom b total)) =
      if b.length < n then .ok (none, b) else .ok (some (b.take n), b.drop n) := by
  subst h
  by_cases hwait : b.length < n
  · rw [if_pos (by exact_mod_cast hwait), if_pos hwait]
  · have hsub := @subarray_nat b 0 n (by omega) (by omega)
    rw [Nat.cast_zero, List.drop_zero, Nat.sub_zero] at hsub
    rw [if_neg (by exact_mod_cast hwait), if_neg hwait, subarrayFrom_nat (by omega), hsub]

theorem tryConsumeBerFrame_eq {b : List Octet} (hover : roseHeader b ≠ .overlong) :
    tryConsumeBerFrame b =
      match roseHeader b with
      | .frame f n => .ok (some f, b.drop n)
      | .badForm => .error ⟨(b.drop 1).headD 0⟩
      | _ => .ok (none, b) := by
  cases b with
  | nil => rfl
  | cons first rest =>
      cases rest with
      | nil => rfl
      | cons l rest =>
          simp only [tryConsumeBerFrame, parseBerLength_cons,
            if_neg (show ¬(first :: l :: rest).length < 2 by simp)]
          simp only [roseHeader, List.drop_succ_cons, List.drop_zero] at hover ⊢
          by_cases hshort : l.toNat < 128
          · simp only [if_pos hshort]
            rw [@cut_eq _ _ (2 + l.toNat) (by push_cast; ring)]
            split <;> rfl
          · simp only [if_neg hshort] at hover ⊢
            by_cases hform : l.toNat - 128 = 0 ∨ 4 < l.toNat - 128
            · simp only [if_pos hform]
              rfl
            · simp only [if_neg hform] at hover ⊢
              by_cases hmore : rest.length < l.toNat - 128
              · simp only [if_pos hmore]
              · simp only [if_neg hmore] at hover ⊢
                have hnot : ¬2 ^ 31 ≤ natOfOctets (rest.take (l.toNat - 128)) := by
                  intro hle
                  exact hover (if_pos hle)
                have hint := @toInt_berLengthValue (rest.take (l.toNat - 128)) (by
                  simp only [List.length_take]
                  omega)
                rw [if_pos (by omega)] at hint
                rw [if_neg hnot]
                simp only [hint]
                rw [@cut_eq _ _ (2 + (l.toNat - 128) + natOfOctets (rest.take (l.toNat - 128)))
                  (by push_cast; ring)]
                split <;> rfl

/-! ### One pass -/

theorem jsonHeader_kind (b : List Octet) :
    jsonHeader b ≠ .junk ∧ jsonHeader b ≠ .badForm ∧ jsonHeader b ≠ .overlong := by
  simp only [jsonHeader]
  split
  · simp
  · split
    · split <;> simp
    · split
      · simp
      · split <;> simp

theorem roseHeader_kind (b : List Octet) :
    roseHeader b ≠ .junk ∧ roseHeader b ≠ .badDigits ∧ ∀ n, roseHeader b ≠ .laxDigits n := by
  rw [roseHeader]
  split
  · simp
  · next l rest _ =>
      by_cases hshort : l.toNat < 128
      · rw [if_pos hshort]
        split <;> simp
      · rw [if_neg hshort]
        dsimp only
        by_cases hform : l.toNat - 128 = 0 ∨ 4 < l.toNat - 128
        · simp [if_pos hform]
        · rw [if_neg hform]
          by_cases hmore : rest.length < l.toNat - 128
          · simp [if_pos hmore]
          · rw [if_neg hmore]
            by_cases hover : 2 ^ 31 ≤ natOfOctets (rest.take (l.toNat - 128))
            · rw [if_pos hover]
              simp
            · rw [if_neg hover]
              split <;> simp

/-- Where no length of 2^31 or more stands at the front, the loop does what the header asks
for, but takes what `parseInt` makes of other characters for a length, and gives up where a
header is malformed. -/
theorem framingLoop_succ (fuel : ℕ) {b : List Octet} (hover : header b ≠ .overlong)
    (acc : List Frame) : framingLoop (fuel + 1) b acc =
      match header b with
      | .wait => some (.ok acc, b)
      | .frame f n => framingLoop fuel (b.drop n) (acc ++ [f])
      | .junk => framingLoop fuel b.tail acc
      | .badDigits => some (.ok acc, b.tail)
      | .laxDigits n =>
          if b.length < 8 + n then some (.ok acc, b)
          else framingLoop fuel (b.drop (8 + n)) (acc ++ [(b.drop 8).take n])
      | .badForm => some (.error ⟨(b.drop 1).headD 0⟩, b)
      | .overlong => none := by
  cases b with
  | nil => rfl
  | cons first rest =>
      simp only [header, framingLoop] at hover ⊢
      by_cases hjson : first = frameStartJson
      · simp only [if_pos hjson, tryConsumeJsonFrame_eq]
        obtain ⟨hjunk, hform, hlong⟩ := jsonHeader_kind (first :: rest)
        cases hh : jsonHeader (first :: rest) with
        | laxDigits n =>
            by_cases hwait : (first :: rest).length < 8 + n
            · simp only [if_pos hwait]
            · simp only [if_neg hwait]
        | junk => exact absurd hh hjunk
        | badForm => exact absurd hh hform
        | overlong => exact absurd hh hlong
        | wait => rfl
        | frame f n => rfl
        | badDigits => rfl
      · simp only [if_neg hjson] at hover ⊢
        by_cases hrose : isRoseTag first = true
        · simp only [if_pos hrose] at hover ⊢
          rw [tryConsumeBerFrame_eq hover]
          obtain ⟨hjunk, hdigits, hlax⟩ := roseHeader_kind (first :: rest)
          cases hh : roseHeader (first :: rest) with
          | overlong => exact absurd hh hover
          | junk => exact absurd hh hjunk
          | badDigits => exact absurd hh hdigits
          | laxDigits n => exact absurd hh (hlax n)
          | wait => rfl
          | frame f n => rfl
          | badForm => rfl
        · simp only [if_neg hrose, subarrayFrom_one]

end Esnacc.Ts
