import Esnacc.Runtime.IntStore
import Esnacc.Runtime.Word

/-!
The conversions of an integer to the types of C++. All but the one to `int` go through
`long long` and compare it with the bounds of the target, which are cast to `long long` first.
-/

namespace Esnacc.AsnInt

open BitString

/-- The types that there is a `Get` and a `TryGet` for. -/
inductive Target
  | int | long | longLong | uInt | uLong | uInt64
  deriving DecidableEq, Repr

/-- The width of `long`, which is the same as that of `int` or of `long long`. -/
inductive LongWidth
  | narrow | wide
  deriving DecidableEq, Repr

/-- The largest `long`, plus one. -/
def LongWidth.bound : LongWidth → ℤ
  | .narrow => 2 ^ 31
  | .wide => 2 ^ 63

/-- `SnaccInt64FitsSignedRange`. -/
def int64FitsSignedRange (llValue llMinInclusive llMaxInclusive : ℤ) : Bool :=
  llMinInclusive ≤ llValue && llValue ≤ llMaxInclusive

/-- `SnaccInt64FitsUnsignedRange`. -/
def int64FitsUnsignedRange (llValue llMaxInclusive : ℤ) : Bool :=
  0 ≤ llValue && llValue ≤ llMaxInclusive

/-- `SnaccThrowIfNegativeInt64`. -/
def throwIfNegativeInt64 (llValue : ℤ) : Except Fault Unit :=
  if llValue < 0 then .error (except "integer is negative" .integerError) else .ok ()

/-- `SnaccThrowIfInt64Exceeds`. -/
def throwIfInt64Exceeds (llValue llMaxInclusive : ℤ) (szTargetType : String) : Except Fault Unit :=
  if llMaxInclusive < llValue then
    .error (except ("integer is too big for conversion to " ++ szTargetType) .integerError)
  else .ok ()

-- a cast to the target of a value that has passed the checks for it is left out

variable (w : LongWidth)

/-- `static_cast<long long>(std::numeric_limits<unsigned long>::max())`. -/
def LongWidth.uLongMax : ℤ := toInt64 (2 * w.bound - 1)

def tryGetLong (x : AsnInt) : Option ℤ := do
  let llValue ← x.tryGetInt64
  if ¬ int64FitsSignedRange llValue (-w.bound) (w.bound - 1) then none else some llValue

def getLong (x : AsnInt) : Except Fault ℤ :=
  match x.tryGetLong w with
  | some lResult => .ok lResult
  | none => .error (except "integer is too big for conversion to long" .integerError)

def tryGetUInt (x : AsnInt) : Option ℤ := do
  let llValue ← x.tryGetInt64
  if ¬ int64FitsUnsignedRange llValue (toInt64 (2 ^ 32 - 1)) then none else some llValue

def getUInt (x : AsnInt) : Except Fault ℤ :=
  match x.tryGetInt64 with
  | none => .error (except "integer is too big for conversion to unsigned int" .integerError)
  | some llValue => do
      throwIfNegativeInt64 llValue
      throwIfInt64Exceeds llValue (toInt64 (2 ^ 32 - 1)) "unsigned int"
      return llValue

def tryGetULong (x : AsnInt) : Option ℤ := do
  let llValue ← x.tryGetInt64
  if ¬ int64FitsUnsignedRange llValue w.uLongMax then none else some llValue

def getULong (x : AsnInt) : Except Fault ℤ :=
  match x.tryGetInt64 with
  | none => .error (except "integer is too big for conversion to unsigned long" .integerError)
  | some llValue => do
      throwIfNegativeInt64 llValue
      throwIfInt64Exceeds llValue w.uLongMax "unsigned long"
      return llValue

def tryGetUInt64 (x : AsnInt) : Option ℤ := do
  let llValue ← x.tryGetInt64
  if llValue < 0 then none else some llValue

def getUInt64 (x : AsnInt) : Except Fault ℤ :=
  match x.tryGetInt64 with
  | none => .error (except "integer is too big for conversion to unsigned long long" .integerError)
  | some llValue => do
      throwIfNegativeInt64 llValue
      return llValue

def tryGet (x : AsnInt) : Target → Option ℤ
  | .int => x.tryGetInt
  | .long => x.tryGetLong w
  | .longLong => x.tryGetInt64
  | .uInt => x.tryGetUInt
  | .uLong => x.tryGetULong w
  | .uInt64 => x.tryGetUInt64

def get (x : AsnInt) : Target → Except Fault ℤ
  | .int => x.getInt
  | .long => x.getLong w
  | .longLong => x.getLongLong
  | .uInt => x.getUInt
  | .uLong => x.getULong w
  | .uInt64 => x.getUInt64

/-- The range of a type. -/
def Target.Holds (v : ℤ) : Target → Prop
  | .int => -2 ^ 31 ≤ v ∧ v < 2 ^ 31
  | .long => -w.bound ≤ v ∧ v < w.bound
  | .longLong => -2 ^ 63 ≤ v ∧ v < 2 ^ 63
  | .uInt => 0 ≤ v ∧ v < 2 ^ 32
  | .uLong => 0 ≤ v ∧ v < 2 * w.bound
  | .uInt64 => 0 ≤ v ∧ v < 2 ^ 64

/-- How many octets the conversion that comes first can take. -/
def Target.octets : Target → ℕ
  | .int => 4
  | _ => 8

/-- The range of a type, as far as `long long` reaches. -/
def Target.Reaches (v : ℤ) (t : Target) : Prop := t.Holds w v ∧ v < 2 ^ 63

variable {x : AsnInt}

/-! ### What the conversion to `long long` gives -/

theorem tryGetInt64_eq (h : x.mBytes.length ≤ 8) : x.tryGetInt64 = some x.value := by
  rw [tryGetInt64, if_neg (Nat.not_lt.mpr h), toInt_wordOfOctets (by omega)]
  rfl

theorem tryGetInt64_eq_none (h : 8 < x.mBytes.length) : x.tryGetInt64 = none := by
  rw [tryGetInt64, if_pos h]

theorem tryGetInt_eq (h : x.mBytes.length ≤ 4) : x.tryGetInt = some x.value := by
  rw [tryGetInt, if_neg (Nat.not_lt.mpr h), toInt_wordOfOctets (by omega)]
  rfl

/-- Octets that the conversion takes denote a number of its range. -/
theorem value_bounds {n : ℕ} (h : x.mBytes.length ≤ n) :
    -(256 ^ n) ≤ 2 * x.value ∧ 2 * x.value < 256 ^ n := by
  have hpow : (256 : ℤ) ^ x.mBytes.length ≤ 256 ^ n := pow_le_pow_right₀ (by norm_num) h
  exact ⟨(neg_le_neg hpow).trans (le_intOfOctets x.mBytes),
    (intOfOctets_lt x.mBytes).trans_le hpow⟩

/-- A throwing getter that checks in steps and the other one that compares once. -/
theorem get_of_checks {llValue llMaxInclusive : ℤ} (szTargetType : String) :
    (∃ e, (do
      throwIfNegativeInt64 llValue
      throwIfInt64Exceeds llValue llMaxInclusive szTargetType
      return llValue : Except Fault ℤ) = .error e) ↔
      ¬ int64FitsUnsignedRange llValue llMaxInclusive = true := by
  simp only [throwIfNegativeInt64, throwIfInt64Exceeds, int64FitsUnsignedRange, Bool.and_eq_true,
    decide_eq_true_eq]
  by_cases hneg : llValue < 0
  · rw [if_pos hneg]
    exact iff_of_true ⟨_, rfl⟩ fun h => absurd hneg (Int.not_lt.mpr h.1)
  · rw [if_neg hneg]
    by_cases hbig : llMaxInclusive < llValue
    · rw [if_pos hbig]
      exact iff_of_true ⟨_, rfl⟩ fun h => absurd hbig (Int.not_lt.mpr h.2)
    · rw [if_neg hbig]
      refine iff_of_false (fun ⟨e, h⟩ => nomatch h) (not_not.mpr ?_)
      exact ⟨Int.not_lt.mp hneg, Int.not_lt.mp hbig⟩

/-- The getter throws where the other one fails. -/
theorem get_error_iff (x : AsnInt) (t : Target) :
    (∃ e, x.get w t = .error e) ↔ x.tryGet w t = none := by
  cases t with
  | int =>
      simp only [get, tryGet, getInt]
      cases x.tryGetInt <;> simp
  | long =>
      simp only [get, tryGet, getLong]
      cases x.tryGetLong w <;> simp
  | longLong =>
      simp only [get, tryGet, getLongLong]
      cases x.tryGetInt64 <;> simp
  | uInt =>
      simp only [get, tryGet, getUInt, tryGetUInt]
      cases x.tryGetInt64 with
      | none => simp
      | some llValue => exact (get_of_checks "unsigned int").trans (by simp)
  | uLong =>
      simp only [get, tryGet, getULong, tryGetULong]
      cases x.tryGetInt64 with
      | none => simp
      | some llValue => exact (get_of_checks "unsigned long").trans (by simp)
  | uInt64 =>
      simp only [get, tryGet, getUInt64, tryGetUInt64, throwIfNegativeInt64]
      cases x.tryGetInt64 with
      | none => simp
      | some llValue =>
          by_cases hneg : llValue < 0 <;> simp [hneg, bind, Except.bind, pure, Except.pure]

/-- What a getter returns is the integer. -/
theorem eq_value_of_tryGet {t : Target} {v : ℤ} (h : x.tryGet w t = some v) : v = x.value := by
  have hwide (ll : ℤ) (hll : x.tryGetInt64 = some ll) : ll = x.value := by
    by_cases hlen : x.mBytes.length ≤ 8
    · rw [tryGetInt64_eq hlen] at hll
      exact (Option.some.inj hll).symm
    · rw [tryGetInt64_eq_none (Nat.not_le.mp hlen)] at hll
      cases hll
  cases t with
  | int =>
      by_cases hlen : x.mBytes.length ≤ 4
      · rw [tryGet, tryGetInt_eq hlen] at h
        exact (Option.some.inj h).symm
      · rw [tryGet, tryGetInt, if_pos (Nat.not_le.mp hlen)] at h
        cases h
  | longLong => exact hwide v h
  | long | uInt | uLong | uInt64 =>
      obtain ⟨ll, hll, hcheck⟩ := Option.bind_eq_some_iff.mp h
      split at hcheck
      · cases hcheck
      · cases hcheck
        exact hwide v hll

/-- A getter whose bound is cast to `long long` without loss succeeds in its range. -/
theorem tryGet_eq_iff {t : Target} (ht : t ≠ .uLong) :
    x.tryGet w t = some x.value ↔ x.mBytes.length ≤ t.octets ∧ t.Reaches w x.value := by
  have hbound : (2 : ℤ) ^ 31 ≤ w.bound ∧ w.bound ≤ 2 ^ 63 := by
    cases w <;> decide
  have hmax : toInt64 4294967295 = 4294967295 := toInt64_eq (by norm_num) (by norm_num)
  cases t with
  | uLong => exact absurd rfl ht
  | int =>
      simp only [tryGet, Target.octets, Target.Reaches, Target.Holds]
      by_cases hlen : x.mBytes.length ≤ 4
      · have hrange := value_bounds hlen
        exact iff_of_true (tryGetInt_eq hlen) ⟨hlen, by omega⟩
      · rw [tryGetInt, if_pos (Nat.not_le.mp hlen)]
        refine iff_of_false (fun h => ?_) fun h => hlen h.1
        cases h
  | long | longLong | uInt | uInt64 =>
      simp only [tryGet, tryGetLong, tryGetUInt, tryGetUInt64, Target.octets, Target.Reaches,
        Target.Holds]
      by_cases hlen : x.mBytes.length ≤ 8
      · have hrange := value_bounds hlen
        simp [tryGetInt64_eq hlen, hlen, int64FitsSignedRange, int64FitsUnsignedRange, hmax]
        omega
      · simp [tryGetInt64_eq_none (Nat.not_le.mp hlen), hlen]

/-- Where `long` is as wide as `long long`, the cast makes the bound of `unsigned long` negative. -/
theorem tryGetULong_wide (x : AsnInt) : x.tryGetULong .wide = none := by
  have hmax : LongWidth.uLongMax .wide = -1 := by decide
  rw [tryGetULong, hmax]
  cases x.tryGetInt64 with
  | none => rfl
  | some llValue =>
      simp only [int64FitsUnsignedRange, Option.bind_eq_bind, Option.bind_some, Bool.and_eq_true,
        decide_eq_true_eq]
      rw [if_pos (by omega)]

/-- For the shortest octets the range alone decides. -/
theorem length_le_of_reaches {t : Target} (h : Shortest x.mBytes) (hr : t.Reaches w x.value) :
    x.mBytes.length ≤ t.octets := by
  have hbound : (2 : ℤ) ^ 31 ≤ w.bound ∧ w.bound ≤ 2 ^ 63 := by
    cases w <;> decide
  have hvalue : intOfOctets x.mBytes = x.value := rfl
  cases t with
  | int =>
      obtain ⟨⟨hge, hlt⟩, -⟩ := hr
      exact (h.length_le_iff (by decide : 0 < 4)).mpr ⟨by omega, by omega⟩
  | long | longLong | uInt | uLong | uInt64 =>
      obtain ⟨⟨hge, hlt⟩, hmax⟩ := hr
      exact (h.length_le_iff (by decide : 0 < 8)).mpr ⟨by omega, by omega⟩

end Esnacc.AsnInt
