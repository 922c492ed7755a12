import Esnacc.Json.QuotedString

/-!
Tokens of the texts that the writer writes for values that are neither arrays nor objects.
-/

namespace Esnacc.SJson

open BitString

/-- No number goes on with what comes next. -/
def Ends (rest : List Octet) : Prop :=
  ∀ c ∈ rest.head?, isDigit c = false ∧ c ≠ 0x2E ∧ c ≠ 0x65 ∧ c ≠ 0x45

theorem ends_cons {c : Octet} (h : isDigit c = false ∧ c ≠ 0x2E ∧ c ≠ 0x65 ∧ c ≠ 0x45)
    (rest : List Octet) : Ends (c :: rest) := fun _ hd => Option.some_inj.mp hd ▸ h

theorem skipComments_of_ne {s : Scan} (h : s.token.type ≠ .comment) (n : ℕ) :
    skipComments n s = s := by
  cases n with
  | zero => rfl
  | succ n => rw [skipComments, if_neg fun hc => h hc.2]

theorem readTokenSkippingComments_eq {current : List Octet} {s : Scan} (hs : readToken current = s)
    (h : s.token.type ≠ .comment) : readTokenSkippingComments current = s := by
  rw [readTokenSkippingComments, hs, skipComments_of_ne h]

theorem readToken_arraySeparator (rest : List Octet) :
    readToken (0x2C :: rest) = single .arraySeparator 0x2C rest := rfl

theorem readToken_arrayEnd (rest : List Octet) :
    readToken (0x5D :: rest) = single .arrayEnd 0x5D rest := rfl

theorem readToken_arrayBegin (rest : List Octet) :
    readToken (0x5B :: rest) = single .arrayBegin 0x5B rest := rfl

theorem readToken_objectBegin (rest : List Octet) :
    readToken (0x7B :: rest) = single .objectBegin 0x7B rest := rfl

theorem readToken_objectEnd (rest : List Octet) :
    readToken (0x7D :: rest) = single .objectEnd 0x7D rest := rfl

theorem match_append (pattern rest : List Octet) :
    «match» pattern (pattern ++ rest) = (true, pattern, rest) := by
  rw [«match», if_pos (List.prefix_append pattern rest), List.drop_left]

theorem scanned_match (type : TokenType) (c : Octet) (pattern rest : List Octet) :
    scanned type c («match» pattern (pattern ++ rest)) = ⟨true, ⟨type, c :: pattern⟩, rest⟩ := by
  rw [match_append]
  rfl

theorem readToken_true (rest : List Octet) : readToken (Value.name "true" ++ rest) =
    ⟨true, ⟨.tokenTrue, Value.name "true"⟩, rest⟩ :=
  scanned_match .tokenTrue 0x74 (Value.name "rue") rest

theorem readToken_false (rest : List Octet) : readToken (Value.name "false" ++ rest) =
    ⟨true, ⟨.tokenFalse, Value.name "false"⟩, rest⟩ :=
  scanned_match .tokenFalse 0x66 (Value.name "alse") rest

theorem readToken_null (rest : List Octet) : readToken (Value.name "null" ++ rest) =
    ⟨true, ⟨.null, Value.name "null"⟩, rest⟩ :=
  scanned_match .null 0x6E (Value.name "ull") rest

/-! ### Numbers -/

/-- The text is one number, whatever comes behind it that does not go on with it. -/
def IsNumber : List Octet → Prop
  | [] => False
  | c :: more => (isDigit c = true ∨ c = 0x2D) ∧
      ∀ rest, Ends rest → readNumber (more ++ rest) = (more, rest)

theorem isSpace_of_isDigit {c : Octet} (h : isDigit c = true ∨ c = 0x2D) : isSpace c = false := by
  rw [isSpace, decide_eq_false_iff_not]
  rintro (rfl | rfl | rfl | rfl) <;> revert h <;> decide

theorem readToken_number {c : Octet} {more rest : List Octet} (h : IsNumber (c :: more))
    (hrest : Ends rest) :
    readToken (c :: more ++ rest) = ⟨true, ⟨.number, c :: more⟩, rest⟩ := by
  have hne (d : Octet) (hd : ¬(isDigit d = true ∨ d = 0x2D)) : c ≠ d := by
    rintro rfl
    exact hd h.1
  rw [List.cons_append, readToken, skipSpaces_cons (isSpace_of_isDigit h.1)]
  dsimp only
  rw [if_neg (hne _ (by decide)), if_neg (hne _ (by decide)), if_neg (hne _ (by decide)),
    if_neg (hne _ (by decide)), if_neg (hne _ (by decide)), if_neg (hne _ (by decide)),
    if_pos h.1, h.2 rest hrest]

theorem digitsOf_append {digits rest : List Octet} (hdigits : ∀ d ∈ digits, isDigit d = true)
    (hrest : ∀ c ∈ rest.head?, isDigit c = false) : digitsOf (digits ++ rest) = (digits, rest) := by
  rw [digitsOf, List.span_eq_takeWhile_dropWhile, List.takeWhile_append_of_pos hdigits,
    List.dropWhile_append_of_pos hdigits]
  cases rest with
  | nil => rw [List.takeWhile_nil, List.append_nil, List.dropWhile_nil]
  | cons c rest =>
      have hc : ¬isDigit c = true := by rw [hrest c rfl]; decide
      rw [List.takeWhile_cons_of_neg hc, List.append_nil, List.dropWhile_cons_of_neg hc]

theorem readNumber_digits {digits rest : List Octet} (hdigits : ∀ d ∈ digits, isDigit d = true)
    (hrest : Ends rest) : readNumber (digits ++ rest) = (digits, rest) := by
  have hfraction : readFraction rest = ([], rest) := by
    cases rest with
    | nil => rfl
    | cons c rest => rw [readFraction, if_neg (hrest c rfl).2.1]
  have hexponent : readExponent rest = ([], rest) := by
    cases rest with
    | nil => rfl
    | cons c rest =>
        have hc := (hrest c rfl).2.2
        rw [readExponent, if_neg (not_or.mpr hc)]
  rw [readNumber, digitsOf_append hdigits fun c hc => (hrest c hc).1]
  dsimp only
  rw [hfraction, hexponent, List.append_nil, List.append_nil]

/-! ### Integers -/

/-- The octets of digits, in decimal. -/
def digitOctets (digits : List ℕ) : List Octet := digits.map fun d => BitVec.ofNat 8 (0x30 + d)

def valueFrom (value : ℕ) (digits : List ℕ) : ℕ := digits.foldl (fun v d => v * 10 + d) value

theorem isDigit_ofNat : ∀ d < 10, isDigit (BitVec.ofNat 8 (0x30 + d)) = true ∧
    (BitVec.ofNat 8 (0x30 + d)).toNat - 0x30 = d := by
  decide

theorem isDigit_digitOctets {digits : List ℕ} (h : ∀ d ∈ digits, d < 10) :
    ∀ c ∈ digitOctets digits, isDigit c = true := by
  intro c hc
  obtain ⟨d, hd, rfl⟩ := List.mem_map.mp hc
  exact (isDigit_ofNat d (h d hd)).1

theorem le_valueFrom (value : ℕ) (digits : List ℕ) : value ≤ valueFrom value digits := by
  induction digits generalizing value with
  | nil => exact le_rfl
  | cons d digits ih =>
      have := ih (value * 10 + d)
      rw [valueFrom, List.foldl_cons]
      rw [valueFrom] at this
      omega

/-- Digits that denote an integer of the type are read as it. -/
theorem integerOf_digitOctets {maxIntegerValue : ℕ} (hmax : 10 ≤ maxIntegerValue)
    {digits : List ℕ} (hdigits : ∀ d ∈ digits, d < 10) {value : ℕ}
    (hle : valueFrom value digits ≤ maxIntegerValue) :
    integerOf maxIntegerValue (digitOctets digits) value = some (valueFrom value digits) := by
  induction digits generalizing value with
  | nil => rfl
  | cons d digits ih =>
      rw [List.forall_mem_cons] at hdigits
      obtain ⟨hdigit, hvalue⟩ := isDigit_ofNat d hdigits.1
      have hstep : value * 10 + d ≤ valueFrom value (d :: digits) :=
        le_valueFrom (value * 10 + d) digits
      have hlong (hne : digitOctets digits ≠ []) : (value * 10 + d) * 10 ≤ maxIntegerValue := by
        cases digits with
        | nil => exact absurd rfl hne
        | cons d' digits =>
            have := le_valueFrom ((value * 10 + d) * 10 + d') digits
            have heq : valueFrom ((value * 10 + d) * 10 + d') digits =
                valueFrom value (d :: d' :: digits) := rfl
            omega
      rw [digitOctets, List.map_cons, integerOf, if_neg (by rw [hdigit]; decide)]
      dsimp only
      rw [hvalue, if_neg, ← digitOctets, ih hdigits.2 hle]
      · rfl
      · rintro ⟨hge, hlt | hne | hlt⟩
        · omega
        · have := hlong hne
          omega
        · omega

theorem decimal_eq (n : ℕ) : ∃ digits : List ℕ, digits ≠ [] ∧ (∀ d ∈ digits, d < 10) ∧
    valueFrom 0 digits = n ∧ Value.decimal n = digitOctets digits := by
  rw [Value.decimal]
  split
  · next h => exact ⟨[0], List.cons_ne_nil _ _, by decide, h.symm, rfl⟩
  · next h =>
      refine ⟨(Nat.digits 10 n).reverse, ?_, fun d hd => ?_, ?_, rfl⟩
      · rw [ne_eq, List.reverse_eq_nil_iff]
        exact Nat.digits_ne_nil_iff_ne_zero.mpr h
      · exact Nat.digits_lt_base (by decide) (List.mem_reverse.mp hd)
      · have hfold : (fun d v : ℕ => v * 10 + d) = fun d v => d + 10 * v := by
          funext d v
          ring
        rw [valueFrom, List.foldl_reverse, hfold]
        conv_rhs => rw [← Nat.ofDigits_digits 10 n, Nat.ofDigits_eq_foldr]
        rfl

theorem isNumber_decimal (n : ℕ) : IsNumber (Value.decimal n) ∧
    IsNumber (0x2D :: Value.decimal n) := by
  obtain ⟨digits, hne, hdigits, -, heq⟩ := decimal_eq n
  have hall := isDigit_digitOctets hdigits
  rw [heq]
  refine ⟨?_, .inr rfl, fun rest hrest => readNumber_digits hall hrest⟩
  cases digits with
  | nil => exact absurd rfl hne
  | cons d digits =>
      rw [digitOctets, List.map_cons] at hall ⊢
      rw [List.forall_mem_cons] at hall
      exact ⟨.inl hall.1, fun rest hrest => readNumber_digits hall.2 hrest⟩

theorem integerOf_decimal {maxIntegerValue n : ℕ} (hmax : 10 ≤ maxIntegerValue)
    (hle : n ≤ maxIntegerValue) : integerOf maxIntegerValue (Value.decimal n) 0 = some n := by
  obtain ⟨digits, -, hdigits, hvalue, heq⟩ := decimal_eq n
  rw [heq, integerOf_digitOctets hmax hdigits (hvalue.symm ▸ hle), hvalue]

theorem isMinus_decimal (n : ℕ) : isMinus (Value.decimal n) = false := by
  obtain ⟨digits, hne, hdigits, -, heq⟩ := decimal_eq n
  rw [heq]
  cases digits with
  | nil => exact absurd rfl hne
  | cons d digits =>
      have hdigit := (isDigit_ofNat d (hdigits d List.mem_cons_self)).1
      rw [digitOctets, List.map_cons, isMinus, decide_eq_false_iff_not]
      intro h
      rw [h] at hdigit
      exact absurd hdigit (by decide)

variable {ρ : Type} [DecidableEq ρ] (D : Doubles ρ)

/-- An integer that is not negative, as the reader makes it. -/
def natNode (n : ℕ) : Node ρ :=
  if n ≤ 2 ^ 31 - 1 then .intValue (BitVec.ofNat 64 n) else .uintValue (BitVec.ofNat 64 n)

theorem decodeNumber_decimal {n : ℕ} (h : n < 2 ^ 64) :
    decodeNumber D (Value.decimal n) = .ok (natNode n) := by
  have hinteger := @integerOf_decimal (2 ^ 64 - 1) n (by norm_num) (by omega)
  rw [decodeNumber, isMinus_decimal, natNode]
  simp only [Bool.false_eq_true, if_false, hinteger]
  split <;> rfl

theorem decodeNumber_minus {n : ℕ} (h : n ≤ 2 ^ 63) :
    decodeNumber D (0x2D :: Value.decimal n) = .ok (.intValue (BitVec.ofInt 64 (-n))) := by
  have hinteger := @integerOf_decimal (2 ^ 63) n (by norm_num) h
  have hminus : isMinus (0x2D :: Value.decimal n) = true := rfl
  rw [decodeNumber, hminus]
  simp only [if_true, List.tail_cons, hinteger]

end Esnacc.SJson
