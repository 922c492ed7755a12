import Mathlib

/-!
Names are made unique by digits at their end. `AppendDigit` goes through the positions of an `int`
and leaves out every digit that is zero, so that 1, 10 and 100 come out the same.
-/

namespace Esnacc.Compiler.UniqueNames

/-- What is left of a number when it is put into an `int`. -/
def wrap (z : ℤ) : ℤ := Int.bmod z 4294967296

/-- `DIGIT_TO_ASCII`. -/
def digitToAscii (d : ℤ) : Char := Char.ofNat (d.tmod 10 + 48).toNat

/-- The passes that are left; the next one has `high = 10 ^ k`. -/
def digitLoop : ℕ → (digit : ℤ) → List Char
  | 0, _ => []
  | k + 1, digit =>
      let value := digit.tdiv (10 ^ k)
      (if value ≠ 0 then [digitToAscii value] else []) ++ digitLoop k (digit.tmod (10 ^ k))

/-- What `AppendDigit` appends. -/
def digitStr (digit : ℤ) : List Char :=
  let digits := digitLoop 10 (if digit < 0 then wrap (digit * -1) else digit)
  if digits = [] then ['0'] else digits

def appendDigit (str : String) (digit : ℤ) : String := str ++ String.ofList (digitStr digit)

def cKWdG : List String :=
  ["auto", "break", "case", "char", "const", "continue", "default", "do", "double", "else", "enum",
    "extern", "float", "for", "goto", "if", "int", "long", "register", "return", "short", "signed",
    "sizeof", "static", "struct", "switch", "typedef", "union", "unsigned", "void", "volatile",
    "while"]

/-- `boolBuiltin` is the setting `BOOL_BUILTIN`. -/
def cxxKWdG (boolBuiltin : Bool) : List String :=
  ["asm", "auto", "break", "case", "catch", "char", "class", "const", "continue", "default",
    "delete", "do", "double", "else", "enum", "extern", "float", "for", "friend", "goto", "if",
    "inline", "int", "long", "new", "operator", "private", "protected", "public", "register",
    "return", "short", "signed", "sizeof", "static", "struct", "switch", "template", "this",
    "throw", "try", "typedef", "union", "unsigned", "virtual", "void", "volatile", "while"] ++
  if boolBuiltin then ["bool", "true", "false"] else []

/-- The loop over the digits, which ends at the limit if not before. -/
def uniqueLoop (nameList : List String) (str : String) (maxDigitVal : ℤ) : ℕ → (digit : ℤ) → String
  | 0, digit => appendDigit str digit
  | fuel + 1, digit =>
      if appendDigit str digit ∈ nameList ∧ digit + 1 < maxDigitVal then
        uniqueLoop nameList str maxDigitVal fuel (digit + 1)
      else appendDigit str digit

def maxDigitVal (maxDigits : ℕ) : ℤ := wrap (10 ^ maxDigits)

/-- The common body of the two functions. -/
def makeStrUnique (keyWords nameList : List String) (str : String) (maxDigits : ℕ)
    (startingDigit : ℤ) : String :=
  if str ∈ nameList ∨ str ∈ keyWords then
    uniqueLoop nameList str (maxDigitVal maxDigits) (maxDigitVal maxDigits - startingDigit).toNat
      startingDigit
  else str

def makeCStrUnique (nameList : List String) (str : String) (maxDigits : ℕ) (startingDigit : ℤ) :
    String :=
  makeStrUnique cKWdG nameList str maxDigits startingDigit

def makeCxxStrUnique (boolBuiltin : Bool) (nameList : List String) (str : String) (maxDigits : ℕ)
    (startingDigit : ℤ) : String :=
  makeStrUnique (cxxKWdG boolBuiltin) nameList str maxDigits startingDigit

/-- The decimal numeral. -/
def numeral (digit : ℤ) : List Char :=
  if digit < 0 then '-' :: Nat.toDigits 10 digit.natAbs else Nat.toDigits 10 digit.natAbs

/-! ### The digits that are appended -/

/-- The digit of one position. -/
def digitAt (value : ℕ) : List Char := if value ≠ 0 then [digitToAscii value] else []

theorem digitLoop_succ (k n : ℕ) :
    digitLoop (k + 1) n = digitAt (n / 10 ^ k) ++ digitLoop k (n % 10 ^ k : ℕ) := by
  have hdiv : (n : ℤ).tdiv (10 ^ k) = (n / 10 ^ k : ℕ) := by
    rw [Int.ofNat_tdiv]
    norm_num
  have hmod : (n : ℤ).tmod (10 ^ k) = (n % 10 ^ k : ℕ) := by
    rw [Int.ofNat_tmod]
    norm_num
  rw [digitLoop, hdiv, hmod, digitAt]
  norm_cast

/-- The last digit comes last. -/
theorem digitLoop_last {k n : ℕ} (h : n < 10 ^ (k + 1)) :
    digitLoop (k + 1) n = digitLoop k (n / 10 : ℕ) ++ digitAt (n % 10) := by
  induction k generalizing n with
  | zero =>
      have hlt : n < 10 := by
        simpa using h
      rw [digitLoop_succ, pow_zero, Nat.div_one, Nat.mod_eq_of_lt hlt]
      simp [digitLoop]
  | succ k ih =>
      have hdiv : n % 10 ^ (k + 1) / 10 = n / 10 % 10 ^ k := by
        rw [Nat.pow_succ', Nat.mod_mul_right_div_self]
      have hmod : n % 10 ^ (k + 1) % 10 = n % 10 :=
        Nat.mod_mod_of_dvd n (Dvd.intro_left _ (Nat.pow_succ 10 k).symm)
      have hhigh : n / 10 ^ (k + 1) = n / 10 / 10 ^ k := by
        rw [Nat.pow_succ', Nat.div_div_eq_div_mul]
      rw [digitLoop_succ, ih (Nat.mod_lt n (by positivity)), digitLoop_succ, hdiv, hmod, hhigh,
        List.append_assoc]

theorem digitToAscii_digitChar : ∀ d < 10, digitToAscii (d : ℕ) = d.digitChar ∧
    (d.digitChar = '0' ↔ d = 0) := by
  decide

theorem digitAt_eq {d : ℕ} (h : d < 10) : digitAt d = [d.digitChar].filter (· ≠ '0') := by
  obtain ⟨hchar, hzero⟩ := digitToAscii_digitChar d h
  rw [digitAt, hchar, List.filter_singleton]
  by_cases hd : d = 0 <;> simp [hd, hzero]

/-- The decimal digits without the zeros. -/
theorem digitLoop_eq {k n : ℕ} (h : n < 10 ^ k) :
    digitLoop k n = (Nat.toDigits 10 n).filter (· ≠ '0') := by
  induction k generalizing n with
  | zero =>
      obtain rfl : n = 0 := by
        simpa using h
      rfl
  | succ k ih =>
      have hdiv : n / 10 < 10 ^ k := by
        rw [Nat.div_lt_iff_lt_mul (by norm_num), ← Nat.pow_succ]
        exact h
      -- both sides are taken apart at the last digit
      rw [digitLoop_last h, ih hdiv, digitAt_eq (Nat.mod_lt n (by norm_num))]
      rcases Nat.lt_or_ge n 10 with hlt | hge
      · rw [Nat.div_eq_of_lt hlt, Nat.mod_eq_of_lt hlt, Nat.toDigits_of_lt_base hlt,
          Nat.toDigits_zero]
        rfl
      · rw [Nat.toDigits_of_base_le (by norm_num) hge, List.filter_append]

/-- A number that is not zero has a digit that is not. -/
theorem exists_digit {n : ℕ} (h : 0 < n) : (Nat.toDigits 10 n).filter (· ≠ '0') ≠ [] := by
  induction n using Nat.strongRecOn with
  | ind n ih =>
      rcases Nat.lt_or_ge n 10 with hlt | hge
      · have hzero := (digitToAscii_digitChar n hlt).2
        rw [Nat.toDigits_of_lt_base hlt, List.filter_cons_of_pos (by simp; omega)]
        exact List.cons_ne_nil _ _
      · rw [Nat.toDigits_of_base_le (by norm_num) hge, List.filter_append]
        exact List.append_ne_nil_of_left_ne_nil (ih _ (by omega) (by omega)) _

/-- The digits of a counter that are appended. -/
def withoutZeros (n : ℕ) : List Char :=
  if n = 0 then ['0'] else (Nat.toDigits 10 n).filter (· ≠ '0')

/-- No digit of the numeral is left out. -/
def ZeroFree (n : ℕ) : Prop := n = 0 ∨ '0' ∉ Nat.toDigits 10 n

/-- A natural number as an `int`. -/
theorem digitStr_natCast {n : ℕ} (h : n < 10 ^ 10) :
    digitStr n = withoutZeros n := by
  have hneg : ¬ (n : ℤ) < 0 := by
    omega
  simp only [digitStr, withoutZeros, if_neg hneg, digitLoop_eq h]
  rcases Nat.eq_zero_or_pos n with rfl | hpos
  · rfl
  · rw [if_neg (exists_digit hpos), if_neg (Nat.ne_of_gt hpos)]

theorem digitStr_eq_toDigits {n : ℕ} (h : n < 10 ^ 10) :
    digitStr n = Nat.toDigits 10 n ↔ ZeroFree n := by
  rw [digitStr_natCast h, ZeroFree, withoutZeros]
  rcases Nat.eq_zero_or_pos n with rfl | hpos
  · exact iff_of_true rfl (Or.inl rfl)
  · rw [if_neg (Nat.ne_of_gt hpos), List.filter_eq_self, or_iff_right (Nat.ne_of_gt hpos)]
    constructor
    · intro hall hmem
      simpa using hall '0' hmem
    · intro hmem c hc
      rw [decide_eq_true_eq]
      rintro rfl
      exact hmem hc

/-- The digits of an `int` that is negative, but for the least one. -/
theorem digitStr_neg {n : ℕ} (hpos : 0 < n) (h : n < 2 ^ 31) : digitStr (-n) = digitStr n := by
  have hneg : (-(n : ℤ)) < 0 := by
    omega
  have hnot : ¬ (n : ℤ) < 0 := by
    omega
  have hwrap : wrap (-(n : ℤ) * -1) = n := by
    rw [wrap, Int.bmod_def]
    split <;> omega
  simp only [digitStr, if_pos hneg, if_neg hnot, hwrap]

theorem dash_notMem_digitStr {n : ℕ} (h : n < 10 ^ 10) : '-' ∉ digitStr n := by
  rw [digitStr_natCast h, withoutZeros]
  split
  · decide
  · intro hmem
    have hdigit := Nat.isDigit_of_mem_toDigits (by norm_num) (by norm_num)
      (List.mem_of_mem_filter hmem)
    exact absurd hdigit (by decide)

/-- The decimal numeral is appended if it is not that of a negative number and has no zeros. -/
theorem digitStr_eq_numeral {digit : ℤ} (hlow : -2 ^ 31 ≤ digit) (hhigh : digit < 2 ^ 31) :
    digitStr digit = numeral digit ↔ 0 ≤ digit ∧ ZeroFree digit.natAbs := by
  rcases lt_or_ge digit 0 with hneg | hpos
  · refine iff_of_false (fun heq => ?_) fun h => absurd h.1 (Int.not_le.mpr hneg)
    rw [numeral, if_pos hneg] at heq
    rcases lt_or_eq_of_le hlow with hlow | rfl
    · obtain ⟨n, rfl⟩ : ∃ n : ℕ, digit = -n := ⟨digit.natAbs, by omega⟩
      rw [digitStr_neg (by omega) (by omega)] at heq
      exact dash_notMem_digitStr (by omega) (heq ▸ List.mem_cons_self)
    · revert heq
      decide
  · obtain ⟨n, rfl⟩ := Int.eq_ofNat_of_zero_le hpos
    rw [numeral, if_neg (Int.not_lt.mpr hpos), Int.natAbs_natCast,
      digitStr_eq_toDigits (by omega), and_iff_right hpos]

/-! ### Key words -/

/-- The last character is none of those that are appended. -/
def EndsInLetter (str : String) : Prop := ∀ c ∈ str.toList.getLast?, 57 < c.toNat

theorem toNat_digitLoop (k : ℕ) (digit : ℤ) : ∀ c ∈ digitLoop k digit, c.toNat ≤ 57 := by
  induction k generalizing digit with
  | zero => nofun
  | succ k ih =>
      intro c hc
      rcases List.mem_append.mp hc with hc | hc
      · have hascii : ∀ n < 58, (Char.ofNat n).toNat ≤ 57 := by
          decide
        split at hc
        · obtain rfl := List.mem_singleton.mp hc
          have hmod := Int.tmod_lt_of_pos (digit.tdiv (10 ^ k)) (show (0 : ℤ) < 10 by norm_num)
          exact hascii _ (by omega)
        · cases hc
      · exact ih _ c hc

theorem digitStr_cases (digit : ℤ) : digitStr digit = ['0'] ∨
    ∃ z, digitStr digit = digitLoop 10 z ∧ digitLoop 10 z ≠ [] := by
  unfold digitStr
  generalize (if digit < 0 then wrap (digit * -1) else digit) = z
  by_cases hnone : digitLoop 10 z = []
  · exact Or.inl (if_pos hnone)
  · exact Or.inr ⟨z, if_neg hnone, hnone⟩

theorem not_endsInLetter (str : String) (digit : ℤ) :
    ¬ EndsInLetter (appendDigit str digit) := by
  have hdigits : digitStr digit ≠ [] ∧ ∀ c ∈ digitStr digit, c.toNat ≤ 57 := by
    rcases digitStr_cases digit with hzero | ⟨z, hz, hne⟩
    · rw [hzero]
      simp
    · rw [hz]
      exact ⟨hne, toNat_digitLoop 10 z⟩
  intro h
  have hlast := h ((digitStr digit).getLast hdigits.1) (by
    rw [appendDigit, String.toList_append, String.toList_ofList,
      List.getLast?_append_of_ne_nil _ hdigits.1, List.getLast?_eq_getLast_of_ne_nil hdigits.1]
    rfl)
  exact absurd (hdigits.2 _ (List.getLast_mem hdigits.1)) (Nat.not_le.mpr hlast)

/-- No key word has digits at its end. -/
theorem endsInLetter_cKWdG : ∀ str ∈ cKWdG, EndsInLetter str := by
  simp [cKWdG, EndsInLetter]

theorem endsInLetter_cxxKWdG (boolBuiltin : Bool) :
    ∀ str ∈ cxxKWdG boolBuiltin, EndsInLetter str := by
  cases boolBuiltin <;> simp [cxxKWdG, EndsInLetter]

/-! ### Unique names -/

/-- The loop ends at a free name if it comes to one. -/
theorem uniqueLoop_notMem {nameList : List String} {str : String} {limit digit : ℤ} {fuel : ℕ}
    (hfuel : (limit - digit).toNat ≤ fuel) :
    uniqueLoop nameList str limit fuel digit ∉ nameList ↔
      ∃ d, digit ≤ d ∧ (d = digit ∨ d < limit) ∧ appendDigit str d ∉ nameList := by
  induction fuel generalizing digit with
  | zero =>
      constructor
      · exact fun h => ⟨digit, Int.le_refl _, Or.inl rfl, h⟩
      · rintro ⟨d, hle, hd, hfree⟩
        obtain rfl : d = digit := by
          omega
        exact hfree
  | succ fuel ih =>
      rw [uniqueLoop]
      split
      · next htaken =>
        rw [ih (by omega)]
        constructor
        · rintro ⟨d, hle, hd, hfree⟩
          exact ⟨d, by omega, by omega, hfree⟩
        · rintro ⟨d, hle, hd, hfree⟩
          have hne : d ≠ digit := by
            rintro rfl
            exact hfree htaken.1
          exact ⟨d, by omega, by omega, hfree⟩
      · next hend =>
        constructor
        · exact fun h => ⟨digit, Int.le_refl _, Or.inl rfl, h⟩
        · rintro ⟨d, hle, hd, hfree⟩ hmem
          have hne : d ≠ digit := by
            rintro rfl
            exact hfree hmem
          exact hend ⟨hmem, by omega⟩

theorem uniqueLoop_eq_appendDigit (nameList : List String) (str : String) (limit : ℤ) (fuel : ℕ)
    (digit : ℤ) : ∃ d, uniqueLoop nameList str limit fuel digit = appendDigit str d := by
  induction fuel generalizing digit with
  | zero => exact ⟨digit, rfl⟩
  | succ fuel ih =>
      rw [uniqueLoop]
      split
      · exact ih _
      · exact ⟨digit, rfl⟩

/-- The name that is left is neither in the list nor a key word. -/
def IsUnique (keyWords nameList : List String) (str : String) : Prop :=
  str ∉ nameList ∧ str ∉ keyWords

/-- A candidate: the name and a counter of up to `maxDigits` digits. -/
def Candidate (str : String) (maxDigits : ℕ) (candidate : String) : Prop :=
  ∃ d, 1 ≤ d ∧ d < 10 ^ maxDigits ∧ candidate = str ++ String.ofList (Nat.toDigits 10 d)

/-- A name that is tried: the counter comes without its zeros. -/
def Tried (str : String) (maxDigits startingDigit : ℕ) (name : String) : Prop :=
  ∃ d : ℕ, startingDigit ≤ d ∧ (d = startingDigit ∨ (d : ℤ) < maxDigitVal maxDigits) ∧
    name = str ++ String.ofList (withoutZeros d)

/-- The name is unique before, or no candidate is free, or a name that is tried is. -/
def Reachable (keyWords nameList : List String) (str : String) (maxDigits startingDigit : ℕ) :
    Prop :=
  IsUnique keyWords nameList str ∨ (∀ name, Candidate str maxDigits name → name ∈ nameList) ∨
    ∃ name, Tried str maxDigits startingDigit name ∧ name ∉ nameList

theorem maxDigitVal_lt (maxDigits : ℕ) : maxDigitVal maxDigits < 2 ^ 31 := by
  have hlt := @Int.bmod_lt (10 ^ maxDigits) 4294967296 (by norm_num)
  rw [maxDigitVal, wrap]
  omega

theorem isUnique_makeStrUnique {keyWords : List String}
    (hletters : ∀ str ∈ keyWords, EndsInLetter str) (nameList : List String) (str : String)
    (maxDigits : ℕ) {startingDigit : ℕ} (hstart : startingDigit < 2 ^ 31) :
    IsUnique keyWords nameList (makeStrUnique keyWords nameList str maxDigits startingDigit) ↔
      IsUnique keyWords nameList str ∨
        ∃ name, Tried str maxDigits startingDigit name ∧ name ∉ nameList := by
  have hlimit := maxDigitVal_lt maxDigits
  rw [makeStrUnique]
  split
  · next hused =>
    have hnot : ¬ IsUnique keyWords nameList str := fun h => hused.elim h.1 h.2
    obtain ⟨last, hlast⟩ := uniqueLoop_eq_appendDigit nameList str (maxDigitVal maxDigits)
      (maxDigitVal maxDigits - startingDigit).toNat startingDigit
    rw [or_iff_right hnot, IsUnique, uniqueLoop_notMem (Nat.le_refl _), and_iff_left]
    · constructor
      · rintro ⟨d, hle, hd, hfree⟩
        obtain ⟨n, rfl⟩ := Int.eq_ofNat_of_zero_le ((Int.natCast_nonneg _).trans hle)
        refine ⟨_, ⟨n, by omega, by omega, rfl⟩, ?_⟩
        rwa [appendDigit, digitStr_natCast (by omega)] at hfree
      · rintro ⟨_, ⟨n, hle, hn, rfl⟩, hfree⟩
        refine ⟨n, by omega, by omega, ?_⟩
        rwa [appendDigit, digitStr_natCast (by omega)]
    · rw [hlast]
      exact fun hmem => not_endsInLetter str last (hletters _ hmem)
  · next hunused =>
    rw [not_or] at hunused
    exact iff_of_true hunused (Or.inl hunused)

/-- A function leaves a unique name whenever a candidate is free. -/
def LeavesUnique (keyWords nameList : List String) (str : String) (maxDigits : ℕ)
    (left : String) : Prop :=
  (∃ name, Candidate str maxDigits name ∧ name ∉ nameList) → IsUnique keyWords nameList left

theorem leavesUnique_iff {keyWords : List String}
    (hletters : ∀ str ∈ keyWords, EndsInLetter str) (nameList : List String) (str : String)
    (maxDigits : ℕ) {startingDigit : ℕ} (hstart : startingDigit < 2 ^ 31) :
    LeavesUnique keyWords nameList str maxDigits
        (makeStrUnique keyWords nameList str maxDigits startingDigit) ↔
      Reachable keyWords nameList str maxDigits startingDigit := by
  rw [LeavesUnique, isUnique_makeStrUnique hletters nameList str maxDigits hstart, Reachable]
  constructor
  · intro h
    by_cases hnone : ∀ name, Candidate str maxDigits name → name ∈ nameList
    · exact Or.inr (Or.inl hnone)
    · push Not at hnone
      rcases h hnone with hunique | htried
      · exact Or.inl hunique
      · exact Or.inr (Or.inr htried)
  · rintro (hunique | hnone | htried) ⟨name, hcandidate, hfree⟩
    · exact Or.inl hunique
    · exact absurd (hnone name hcandidate) hfree
    · exact Or.inr htried

/-- An `int` whose numeral is appended. -/
def Plain (digit : ℤ) : Prop := 0 ≤ digit ∧ ZeroFree digit.natAbs

theorem appendDigit_eq_iff (str : String) {digit : ℤ} {digits : List Char} :
    appendDigit str digit = str ++ String.ofList digits ↔ digitStr digit = digits := by
  rw [appendDigit, String.append_right_inj, String.ofList_inj]

theorem appendDigit_injective (str : String) {digit digit' : ℤ} (hlt : digit < 2 ^ 31)
    (hlt' : digit' < 2 ^ 31) (h : Plain digit) (h' : Plain digit')
    (heq : appendDigit str digit = appendDigit str digit') : digit = digit' := by
  obtain ⟨n, rfl⟩ := Int.eq_ofNat_of_zero_le h.1
  obtain ⟨n', rfl⟩ := Int.eq_ofNat_of_zero_le h'.1
  have hdigits := (appendDigit_eq_iff str).mp heq
  have hn : digitStr n = Nat.toDigits 10 n := (digitStr_eq_toDigits (by omega)).mpr h.2
  have hn' : digitStr n' = Nat.toDigits 10 n' := (digitStr_eq_toDigits (by omega)).mpr h'.2
  rw [hn, hn'] at hdigits
  have hread := congrArg (fun digits => Nat.ofDigitChars 10 digits 0) hdigits
  simp only [Nat.ofDigitChars_ten_toDigits] at hread
  exact congrArg Nat.cast hread

theorem uniqueNames_exact (nameList : List String) (str : String) (maxDigits : ℕ)
    {startingDigit : ℕ} (hstart : startingDigit < 2 ^ 31) (boolBuiltin : Bool) :
    (LeavesUnique cKWdG nameList str maxDigits
        (makeCStrUnique nameList str maxDigits startingDigit) ↔
      Reachable cKWdG nameList str maxDigits startingDigit) ∧
    (LeavesUnique (cxxKWdG boolBuiltin) nameList str maxDigits
        (makeCxxStrUnique boolBuiltin nameList str maxDigits startingDigit) ↔
      Reachable (cxxKWdG boolBuiltin) nameList str maxDigits startingDigit) ∧
    (∀ digit : ℤ, -2 ^ 31 ≤ digit → digit < 2 ^ 31 →
      (appendDigit str digit = str ++ String.ofList (numeral digit) ↔ Plain digit)) ∧
    ∀ digit digit' : ℤ, digit < 2 ^ 31 → digit' < 2 ^ 31 → Plain digit → Plain digit' →
      appendDigit str digit = appendDigit str digit' → digit = digit' := by
  refine ⟨leavesUnique_iff endsInLetter_cKWdG nameList str maxDigits hstart,
    leavesUnique_iff (endsInLetter_cxxKWdG boolBuiltin) nameList str maxDigits hstart,
    fun digit hlow hhigh => ?_, fun digit digit' => appendDigit_injective str⟩
  rw [appendDigit_eq_iff, Plain, digitStr_eq_numeral hlow hhigh]

theorem uniqueNames_exact_foo :
    LeavesUnique cKWdG ["Foo", "Bar"] "Foo" 3 (makeCStrUnique ["Foo", "Bar"] "Foo" 3 1) := by
  refine (@uniqueNames_exact ["Foo", "Bar"] "Foo" 3 1 (by norm_num) false).1.mpr ?_
  exact Or.inr (Or.inr ⟨"Foo1", ⟨1, le_rfl, Or.inl rfl, rfl⟩, by simp⟩)

/-- A name and everything that is tried for up to two digits. -/
def triedNames : List String :=
  "Foo" :: (List.range 100).map fun d => "Foo" ++ String.ofList (withoutZeros d)

/-- `Foo10` is free, and what is left is in the list; 1 and 10 are appended alike. -/
theorem not_leavesUnique :
    ¬ LeavesUnique cKWdG triedNames "Foo" 2 (makeCStrUnique triedNames "Foo" 2 1) ∧
      appendDigit "Foo" 1 = appendDigit "Foo" 10 := by
  refine ⟨fun h => ?_, (appendDigit_eq_iff "Foo").mpr (by decide)⟩
  have hfree : "Foo" ++ String.ofList ['1', '0'] ∉ triedNames := by
    intro hmem
    rcases List.mem_cons.mp hmem with hbase | hmem
    · exact absurd hbase (by simp)
    · obtain ⟨d, -, hd⟩ := List.mem_map.mp hmem
      rw [String.append_right_inj, String.ofList_inj, withoutZeros] at hd
      split at hd
      · cases hd
      · have hzero : '0' ∈ ['1', '0'] := by
          simp
        rw [← hd] at hzero
        simp at hzero
  have hreach := @leavesUnique_iff cKWdG endsInLetter_cKWdG triedNames "Foo" 2 1 (by norm_num)
  rcases hreach.mp h with
    hunique | hnone | ⟨name, ⟨d, hle, hd, rfl⟩, hout⟩
  · exact hunique.1 List.mem_cons_self
  · exact hfree (hnone _ ⟨10, by norm_num, by norm_num, rfl⟩)
  · have hlimit : maxDigitVal 2 = 100 := by
      decide
    exact hout (List.mem_cons_of_mem _ (List.mem_map.mpr
      ⟨d, List.mem_range.mpr (by omega), rfl⟩))

end Esnacc.Compiler.UniqueNames
