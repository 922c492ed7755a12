import Esnacc.Json.Tokens

/-!
A value is read back from its text. The reader makes an integer signed if it has 31 bits at
most, and unsigned otherwise; and it refuses what is nested deeper than its stack may grow.
-/

namespace Esnacc.SJson

open BitString

variable {ρ : Type} [DecidableEq ρ] (D : Doubles ρ)

/-- What the C library promises for a double: the text that is printed for a finite one is a
number that is no integer, and the same double is read from it; an overflow leaves the greatest
or the least one. -/
structure Doubles.Reads (r : ρ) : Prop where
  finite : D.isfinite r = true → IsNumber (realToString D r) ∧
    (∃ c ∈ realToString D r, c = 0x2E ∨ c = 0x65) ∧ D.extract (realToString D r) = (true, r)
  overflow : D.isfinite r = false → D.isnan r = false →
    D.extract (realToString D r) = (false, if D.isNegative r then D.lowest else D.max)
  lowest_ne : D.lowest ≠ D.max

/-- The octets of a text. -/
def IsText (octets : List Octet) : Prop := ∃ text, octets = Utf8.encode text

mutual

/-- Strings are texts, doubles are those of the C library, and the members of an object are a
map: their names have a length that fits and come in their order. -/
def Node.IsRegular : Node ρ → Prop
  | .realValue value => D.Reads value
  | .stringValue value => IsText value.octets
  | .arrayValue values => ElementsRegular values
  | .objectValue members => SortedMap.Sorted Value.memberRank members ∧ MembersRegular members
  | _ => True

def ElementsRegular : List (Node ρ) → Prop
  | [] => True
  | value :: values => value.IsRegular ∧ ElementsRegular values

def MembersRegular : List (List Octet × Node ρ) → Prop
  | [] => True
  | (name, value) :: members =>
      (IsText name ∧ name.length < 2 ^ 30) ∧ value.IsRegular ∧ MembersRegular members

end

mutual

/-- The values that stand in one another, at most. -/
def Node.depth : Node ρ → ℕ
  | .arrayValue values => 1 + elementsDepth values
  | .objectValue members => 1 + membersDepth members
  | _ => 1

def elementsDepth : List (Node ρ) → ℕ
  | [] => 0
  | value :: values => max value.depth (elementsDepth values)

def membersDepth : List (List Octet × Node ρ) → ℕ
  | [] => 0
  | (_, value) :: members => max value.depth (membersDepth members)

end

/-- What a double is read as: not a number is null, and the infinities stay. -/
def realNode (value : ρ) : Node ρ :=
  if D.isfinite value then .realValue value
  else if D.isnan value then .nullValue
  else if D.isNegative value then .realValue D.minusInfinity
  else .realValue D.infinity

mutual

/-- The value as the reader makes it. -/
def Node.normalized : Node ρ → Node ρ
  | .intValue value => if value.toInt < 0 then .intValue value else natNode value.toNat
  | .uintValue value => natNode value.toNat
  | .realValue value => realNode D value
  | .arrayValue values => .arrayValue (normalizedElements values)
  | .objectValue members => .objectValue (normalizedMembers members)
  | value => value

def normalizedElements : List (Node ρ) → List (Node ρ)
  | [] => []
  | value :: values => value.normalized :: normalizedElements values

def normalizedMembers : List (List Octet × Node ρ) → List (List Octet × Node ρ)
  | [] => []
  | (name, value) :: members => (name, value.normalized) :: normalizedMembers members

end

/-! ### Doubles -/

omit [DecidableEq ρ] in
theorem integerOf_eq_none {maxIntegerValue value : ℕ} {text : List Octet}
    (h : ∃ c ∈ text, isDigit c = false) : integerOf maxIntegerValue text value = none := by
  induction text generalizing value with
  | nil => obtain ⟨c, hc, -⟩ := h; cases hc
  | cons c text ih =>
      rw [integerOf]
      split
      · rfl
      · next hc =>
          have hrest : ∃ c ∈ text, isDigit c = false := by
            obtain ⟨d, hd, hdigit⟩ := h
            rcases List.mem_cons.mp hd with rfl | hd
            · exact absurd hdigit hc
            · exact ⟨d, hd, hdigit⟩
          dsimp only
          split
          · rfl
          · exact ih hrest

/-- A text with a point or an exponent is no integer. -/
theorem decodeNumber_real {text : List Octet} (h : ∃ c ∈ text, c = 0x2E ∨ c = 0x65) :
    decodeNumber D text = decodeDouble D text := by
  obtain ⟨c, hc, heq⟩ := h
  have hdigit : isDigit c = false := by
    rcases heq with rfl | rfl <;> decide
  have htext : ∃ c ∈ if isMinus text then text.tail else text, isDigit c = false := by
    split
    · next hminus =>
        cases text with
        | nil => cases hc
        | cons d text =>
            rcases List.mem_cons.mp hc with rfl | hc
            · rcases heq with rfl | rfl <;> exact absurd hminus (by rw [isMinus]; decide)
            · exact ⟨c, hc, hdigit⟩
    · exact ⟨c, hc, hdigit⟩
  rw [decodeNumber]
  simp only [integerOf_eq_none htext]

omit [DecidableEq ρ] in
theorem readNumber_exponent {digits exponent rest : List Octet}
    (hdigits : ∀ d ∈ digits, isDigit d = true) (hexponent : ∀ d ∈ exponent, isDigit d = true)
    (hrest : Ends rest) : readNumber (digits ++ (0x65 :: 0x2B :: exponent) ++ rest) =
      (digits ++ (0x65 :: 0x2B :: exponent), rest) := by
  rw [List.append_assoc, readNumber, digitsOf_append hdigits fun c hc => by cases hc; decide]
  have hsign : readExponent (0x65 :: 0x2B :: (exponent ++ rest)) =
      (0x65 :: 0x2B :: (digitsOf (exponent ++ rest)).1, (digitsOf (exponent ++ rest)).2) := rfl
  simp only [List.cons_append, readFraction]
  rw [if_neg (by decide)]
  dsimp only
  rw [hsign, digitsOf_append hexponent fun c hc => (hrest c hc).1, List.append_nil]

variable {D} in
/-- The text of a double is a number, unless it is none. -/
theorem isNumber_realToString {r : ρ} (h : D.Reads r) :
    (D.isfinite r = false ∧ D.isnan r = true) ∨
      IsNumber (realToString D r) ∧ decodeNumber D (realToString D r) = .ok (realNode D r) := by
  cases hfinite : D.isfinite r with
  | true =>
      obtain ⟨hnumber, hreal, hextract⟩ := h.finite hfinite
      refine .inr ⟨hnumber, ?_⟩
      rw [decodeNumber_real D hreal, decodeDouble]
      simp only [hextract, if_true, realNode, hfinite]
  | false =>
      cases hnan : D.isnan r with
      | true => exact .inl ⟨rfl, rfl⟩
      | false =>
          have htext : realToString D r =
              (if D.isNegative r then [0x2D] else []) ++ Value.name "1e+9999" := by
            simp only [realToString, hfinite, hnan, Bool.false_eq_true, if_true, if_false]
            split <;> rfl
          refine .inr ⟨?_, ?_⟩
          · rw [htext]
            split
            · exact ⟨.inr rfl, fun rest hrest => @readNumber_exponent [0x31]
                [0x39, 0x39, 0x39, 0x39] rest (by decide) (by decide) hrest⟩
            · exact ⟨.inl (by decide), fun rest hrest => @readNumber_exponent []
                [0x39, 0x39, 0x39, 0x39] rest nofun (by decide) hrest⟩
          · have hreal : ∃ c ∈ realToString D r, c = 0x2E ∨ c = 0x65 := by
              rw [htext]
              exact ⟨0x65, List.mem_append_right _ (by decide), .inr rfl⟩
            rw [decodeNumber_real D hreal, decodeDouble, h.overflow hfinite hnan, realNode, hfinite,
              hnan]
            cases D.isNegative r <;> simp [h.lowest_ne]

/-! ### One value -/

/-- The reader stops at a value that is nested too deep. -/
def stackExceeded : Except Stop (Option (Node ρ) × Reader) :=
  .error (.fault (except "Exceeded stackLimit in readValue()." .defaultErrorCode))

/-- What is read of a text, with its depth and the value that it denotes. -/
def outcome (nodes depth : ℕ) (value : Node ρ) (rest : List Octet) (errors : List (List Octet)) :
    Except Stop (Option (Node ρ) × Reader) :=
  if nodes + depth ≤ stackLimit + 1 then .ok (some value, ⟨rest, errors⟩) else stackExceeded

variable {D} {rest : List Octet} {errors : List (List Octet)}

omit [DecidableEq ρ] in
/-- No text begins with a space or the end of an array. -/
theorem head_writeValue {v : Node ρ} (hv : v.IsRegular D) :
    ∃ c more, writeValue D v = c :: more ∧ isSpace c = false ∧ c ≠ 0x5D := by
  have hnumber {text : List Octet} (h : IsNumber text) :
      ∃ c more, text = c :: more ∧ isSpace c = false ∧ c ≠ 0x5D := by
    cases text with
    | nil => exact h.elim
    | cons c more =>
        refine ⟨c, more, rfl, isSpace_of_isDigit h.1, ?_⟩
        rintro rfl
        exact absurd h.1 (by decide)
  cases v with
  | nullValue => exact ⟨_, _, rfl, by decide, by decide⟩
  | intValue value =>
      rw [writeValue, intToString]
      split
      · exact hnumber (isNumber_decimal _).2
      · exact hnumber (isNumber_decimal _).1
  | uintValue value => exact hnumber (isNumber_decimal _).1
  | realValue value =>
      rw [Node.IsRegular] at hv
      rw [writeValue]
      cases hfinite : D.isfinite value with
      | true => exact hnumber (hv.finite hfinite).1
      | false =>
          rw [realToString, hfinite]
          simp only [if_true]
          split_ifs <;> exact ⟨_, _, rfl, by decide, by decide⟩
  | stringValue value => exact ⟨_, _, valueToQuotedString_eq _, by decide, by decide⟩
  | booleanValue value => cases value <;> exact ⟨_, _, rfl, by decide, by decide⟩
  | arrayValue values => exact ⟨_, _, rfl, by decide, by decide⟩
  | objectValue members => exact ⟨_, _, rfl, by decide, by decide⟩

omit [DecidableEq ρ] in
theorem skipSpaces_writeValue {v : Node ρ} (hv : v.IsRegular D) (tail : List Octet) :
    skipSpaces (writeValue D v ++ tail) = writeValue D v ++ tail ∧
      ¬[0x5D] <+: writeValue D v ++ tail := by
  obtain ⟨c, more, htext, hspace, hend⟩ := head_writeValue hv
  rw [htext, List.cons_append]
  refine ⟨skipSpaces_cons hspace _, fun h => hend ?_⟩
  exact (List.cons_prefix_cons.mp h).1.symm

omit [DecidableEq ρ] in
theorem skipSpaces_writeElements {value : Node ρ} (hv : value.IsRegular D) (values : List (Node ρ))
    (tail : List Octet) :
    skipSpaces (writeElements D true (value :: values) ++ tail) =
        writeElements D true (value :: values) ++ tail ∧
      ¬[0x5D] <+: writeElements D true (value :: values) ++ tail := by
  rw [writeElements, separator, if_pos rfl, List.nil_append, List.append_assoc]
  exact skipSpaces_writeValue hv _

/-- One pass of the reader over a token that is a value, or that begins one. -/
theorem readValue_token {text tail : List Octet} {type : TokenType} (fuel nodes : ℕ)
    (htoken : readToken text = ⟨true, ⟨type, tail⟩, rest⟩) (htype : type ≠ .comment) :
    readValue D (fuel + 1) nodes ⟨text, errors⟩ =
      if stackLimit < nodes then stackExceeded
      else match type with
        | .objectBegin => readObject D fuel nodes [] [] ⟨rest, errors⟩
        | .arrayBegin =>
            if [0x5D] <+: skipSpaces rest then
              .ok (some (.arrayValue []), ⟨(skipSpaces rest).drop 1, errors⟩)
            else readElements D fuel nodes [] ⟨skipSpaces rest, errors⟩
        | .number => .ok (decoded ⟨rest, errors⟩ (decodeNumber D tail))
        | .string =>
            match decodeString tail with
            | .error message => .ok (none, addError message ⟨rest, errors⟩)
            | .ok str =>
                match stringNode str with
                | .error f => .error (.fault f)
                | .ok value => .ok (some value, ⟨rest, errors⟩)
        | .tokenTrue => .ok (some (.booleanValue true), ⟨rest, errors⟩)
        | .tokenFalse => .ok (some (.booleanValue false), ⟨rest, errors⟩)
        | .null => .ok (some .nullValue, ⟨rest, errors⟩)
        | _ => .ok (none,
            addError (Value.name "Syntax error: value, object or array expected.")
              ⟨rest, errors⟩) := by
  have hskip := readTokenSkippingComments_eq htoken htype
  rw [readValue]
  simp only [hskip]
  rfl

omit [DecidableEq ρ] in
theorem outcome_one (nodes : ℕ) (value : Node ρ) :
    outcome nodes 1 value rest errors =
      if stackLimit < nodes then stackExceeded else .ok (some value, ⟨rest, errors⟩) := by
  rw [outcome]
  split_ifs <;> first | rfl | omega

theorem readValue_number {text : List Octet} {value : Node ρ} (fuel nodes : ℕ)
    (hnumber : IsNumber text) (hvalue : decodeNumber D text = .ok value) (hrest : Ends rest) :
    readValue D (fuel + 1) nodes ⟨text ++ rest, errors⟩ = outcome nodes 1 value rest errors := by
  cases text with
  | nil => exact hnumber.elim
  | cons c more =>
      rw [readValue_token fuel nodes (readToken_number hnumber hrest) (by decide), outcome_one,
        hvalue]
      rfl

omit [DecidableEq ρ] in
theorem stringNode_eq (value : Text) :
    stringNode value.octets = .ok (.stringValue value : Node ρ) := by
  have hlen : value.octets.length % 2 ^ 32 = value.octets.length :=
    Nat.mod_eq_of_lt (value.fits.trans_lt (by decide))
  simp only [stringNode, duplicateAndPrefix, hlen, value.fits, dif_pos, List.take_length]
  rfl

/-- A value that is neither an array nor an object. -/
theorem readValue_scalar {v : Node ρ} (hv : v.IsRegular D) (hrest : Ends rest)
    (harray : ∀ values, v ≠ .arrayValue values) (hobject : ∀ members, v ≠ .objectValue members)
    (fuel nodes : ℕ) : readValue D (fuel + 1) nodes ⟨writeValue D v ++ rest, errors⟩ =
      outcome nodes 1 (v.normalized D) rest errors := by
  cases v with
  | nullValue =>
      rw [writeValue, readValue_token fuel nodes (readToken_null rest) (by decide), outcome_one]
      rfl
  | intValue value =>
      have hlt := value.toInt_lt
      have hle := value.le_toInt
      have hmod := value.toInt_eq_toNat_cond
      have hnat := value.isLt
      rw [writeValue, intToString, Node.normalized]
      split
      · next hneg =>
          have hvalue : BitVec.ofInt 64 (-(value.toInt.natAbs : ℤ)) = value := by
            rw [← Int.abs_eq_natAbs, abs_of_neg hneg, neg_neg, BitVec.ofInt_toInt]
          have hdecode := @decodeNumber_minus _ _ D value.toInt.natAbs
            (by norm_num at hle; omega)
          rw [hvalue] at hdecode
          exact readValue_number fuel nodes (isNumber_decimal _).2 hdecode hrest
      · next hneg =>
          have hvalue : value.toInt.natAbs = value.toNat := by
            split at hmod <;> omega
          rw [hvalue]
          exact readValue_number fuel nodes (isNumber_decimal _).1
            (decodeNumber_decimal D hnat) hrest
  | uintValue value =>
      rw [writeValue, uintToString, Node.normalized]
      exact readValue_number fuel nodes (isNumber_decimal _).1
        (decodeNumber_decimal D value.isLt) hrest
  | realValue value =>
      rw [Node.IsRegular] at hv
      rw [writeValue, Node.normalized]
      rcases isNumber_realToString hv with ⟨hfinite, hnan⟩ | ⟨hnumber, hdecode⟩
      · have htext : realToString D value = Value.name "null" := by
          simp only [realToString, hfinite, hnan, if_true]
        rw [htext, readValue_token fuel nodes (readToken_null rest) (by decide), outcome_one,
          realNode, hfinite, hnan]
        rfl
      · exact readValue_number fuel nodes hnumber hdecode hrest
  | stringValue value =>
      rw [Node.IsRegular] at hv
      obtain ⟨text, htext⟩ := hv
      rw [writeValue, readValue_token fuel nodes (readToken_valueToQuotedString _ rest) (by decide),
        outcome_one, htext, decodeString_encode, ← htext]
      simp only [stringNode_eq]
      rfl
  | booleanValue value =>
      rw [writeValue]
      cases value with
      | true =>
          rw [if_pos rfl, readValue_token fuel nodes (readToken_true rest) (by decide), outcome_one]
          rfl
      | false =>
          rw [if_neg Bool.false_ne_true,
            readValue_token fuel nodes (readToken_false rest) (by decide), outcome_one]
          rfl
  | arrayValue values => exact absurd rfl (harray values)
  | objectValue members => exact absurd rfl (hobject members)

/-! ### Values in values -/

omit [DecidableEq ρ] in
/-- What stands deeper is what exceeds the stack. -/
theorem stackExceeded_eq_outcome {nodes depth : ℕ} (h : stackLimit + 1 < nodes + depth)
    (value : Node ρ) : stackExceeded = outcome nodes depth value rest errors := by
  rw [outcome, if_neg (by omega)]

omit [DecidableEq ρ] in
theorem outcome_of_le {nodes depth : ℕ} (h : nodes + depth ≤ stackLimit + 1) (value : Node ρ) :
    outcome nodes depth value rest errors = .ok (some value, ⟨rest, errors⟩) := by
  rw [outcome, if_pos h]

omit [DecidableEq ρ] in
theorem writeElements_ends (values : List (Node ρ)) (tail : List Octet) :
    Ends (writeElements D false values ++ 0x5D :: tail) := by
  cases values with
  | nil => exact ends_cons (by decide) _
  | cons value values => exact ends_cons (by decide) _

omit [DecidableEq ρ] in
theorem writeMembers_ends (members : List (List Octet × Node ρ)) (tail : List Octet) :
    Ends (writeMembers D false members ++ 0x7D :: tail) := by
  cases members with
  | nil => exact ends_cons (by decide) _
  | cons member members => exact ends_cons (by decide) _

omit [DecidableEq ρ] in
theorem outcome_succ (nodes depth : ℕ) (value : Node ρ) :
    outcome (nodes + 1) depth value rest errors = outcome nodes (1 + depth) value rest errors := by
  rw [outcome, outcome, Nat.add_assoc]

section Passes

variable {fuel nodes : ℕ} {r : Reader} {value : Node ρ}

/-! One pass through the elements of an array. -/

theorem readElements_end {before : List (Node ρ)}
    (hvalue : readValue D fuel (nodes + 1) r = .ok (some value, ⟨0x5D :: rest, errors⟩)) :
    readElements D (fuel + 1) nodes before r =
      .ok (some (.arrayValue (before ++ [value])), ⟨rest, errors⟩) := by
  rw [readElements, hvalue]
  simp only [readTokenSkippingComments_eq (readToken_arrayEnd rest) nofun]
  rfl

theorem readElements_next {before : List (Node ρ)}
    (hvalue : readValue D fuel (nodes + 1) r = .ok (some value, ⟨0x2C :: rest, errors⟩)) :
    readElements D (fuel + 1) nodes before r =
      readElements D fuel nodes (before ++ [value]) ⟨rest, errors⟩ := by
  rw [readElements, hvalue]
  simp only [readTokenSkippingComments_eq (readToken_arraySeparator rest) nofun]
  rfl

/-! One pass through the members of an object. -/

variable {name previous tail : List Octet} {before : List (List Octet × Node ρ)}

theorem readObject_name (hname : IsText name) :
    readObject D (fuel + 1) nodes previous before
        ⟨valueToQuotedString name ++ 0x3A :: tail, errors⟩ =
      match readValue D fuel (nodes + 1) ⟨tail, errors⟩ with
      | .error stop => .error stop
      | .ok (none, r) => .ok (recoverFromError .objectEnd r)
      | .ok (some value, r) =>
          let comma := readTokenSkippingComments r.current
          let r := { r with current := comma.rest }
          if comma.ok = false ∨ (comma.token.type ≠ .objectEnd ∧
              comma.token.type ≠ .arraySeparator) then
            .ok (addErrorAndRecover "Missing ',' or '\x7d' in object declaration" .objectEnd r)
          else if comma.token.type = .objectEnd then
            .ok (some (.objectValue (setNode before name value)), r)
          else readObject D fuel nodes name (setNode before name value) r := by
  obtain ⟨text, htext⟩ := hname
  have hstring : decodeString (valueToQuotedString name) = .ok name := by
    rw [htext, decodeString_encode]
  have htoken := readTokenSkippingComments_eq
    (readToken_valueToQuotedString name (0x3A :: tail)) (fun h => nomatch h)
  rw [readObject]
  simp only [htoken, hstring]
  rfl

theorem readObject_end (hname : IsText name)
    (hvalue : readValue D fuel (nodes + 1) ⟨tail, errors⟩ =
      .ok (some value, ⟨0x7D :: rest, errors⟩)) :
    readObject D (fuel + 1) nodes previous before
        ⟨valueToQuotedString name ++ 0x3A :: tail, errors⟩ =
      .ok (some (.objectValue (setNode before name value)), ⟨rest, errors⟩) := by
  rw [readObject_name hname, hvalue]
  simp only [readTokenSkippingComments_eq (readToken_objectEnd rest) nofun]
  rfl

theorem readObject_next (hname : IsText name)
    (hvalue : readValue D fuel (nodes + 1) ⟨tail, errors⟩ =
      .ok (some value, ⟨0x2C :: rest, errors⟩)) :
    readObject D (fuel + 1) nodes previous before
        ⟨valueToQuotedString name ++ 0x3A :: tail, errors⟩ =
      readObject D fuel nodes name (setNode before name value) ⟨rest, errors⟩ := by
  rw [readObject_name hname, hvalue]
  simp only [readTokenSkippingComments_eq (readToken_arraySeparator rest) nofun]
  rfl

end Passes

mutual

/-- The text of a value is read as the value, unless it is nested too deep. -/
theorem readValue_writeValue (v : Node ρ) (hv : v.IsRegular D) {rest : List Octet}
    {errors : List (List Octet)} {fuel nodes : ℕ}
    (hfuel : 2 * (writeValue D v).length ≤ fuel) (hrest : Ends rest) :
    readValue D fuel nodes ⟨writeValue D v ++ rest, errors⟩ =
      outcome nodes v.depth (v.normalized D) rest errors := by
  obtain ⟨c, more, hhead, -⟩ := head_writeValue hv
  have hpos : 0 < (writeValue D v).length := by
    rw [hhead]
    exact Nat.succ_pos _
  obtain ⟨fuel, rfl⟩ := Nat.exists_eq_add_one.mpr (by omega : 0 < fuel)
  match v, hv with
  | .nullValue, hv => exact readValue_scalar hv hrest nofun nofun fuel nodes
  | .intValue _, hv => exact readValue_scalar hv hrest nofun nofun fuel nodes
  | .uintValue _, hv => exact readValue_scalar hv hrest nofun nofun fuel nodes
  | .realValue _, hv => exact readValue_scalar hv hrest nofun nofun fuel nodes
  | .stringValue _, hv => exact readValue_scalar hv hrest nofun nofun fuel nodes
  | .booleanValue _, hv => exact readValue_scalar hv hrest nofun nofun fuel nodes
  | .arrayValue values, hv =>
      rw [Node.IsRegular] at hv
      have hlen : (writeValue D (.arrayValue values)).length =
          (writeElements D true values).length + 2 := by
        rw [writeValue, List.length_cons, List.length_append, List.length_singleton]
      have htext : writeValue D (.arrayValue values) ++ rest =
          0x5B :: (writeElements D true values ++ 0x5D :: rest) := by
        rw [writeValue, List.cons_append, List.append_assoc, List.singleton_append]
      rw [htext, readValue_token fuel nodes (readToken_arrayBegin _) (by decide)]
      dsimp only
      rw [Node.depth, Node.normalized]
      split_ifs with hstack hempty
      · exact stackExceeded_eq_outcome (by omega) _
      · cases values with
        | nil => exact (outcome_of_le (by rw [elementsDepth]; omega) _).symm
        | cons value values =>
            obtain ⟨hskip, hend⟩ := skipSpaces_writeElements hv.1 values (0x5D :: rest)
            rw [hskip] at hempty
            exact absurd hempty hend
      · cases values with
        | nil => exact absurd ⟨rest, rfl⟩ hempty
        | cons value values =>
            rw [(skipSpaces_writeElements hv.1 values _).1,
              readElements_writeElements value values hv [] (by omega), List.nil_append,
              outcome_succ]
  | .objectValue members, hv =>
      rw [Node.IsRegular] at hv
      have hlen : (writeValue D (.objectValue members)).length =
          (writeMembers D true members).length + 2 := by
        rw [writeValue, List.length_cons, List.length_append, List.length_singleton]
      have htext : writeValue D (.objectValue members) ++ rest =
          0x7B :: (writeMembers D true members ++ 0x7D :: rest) := by
        rw [writeValue, List.cons_append, List.append_assoc, List.singleton_append]
      rw [htext, readValue_token fuel nodes (readToken_objectBegin _) (by decide)]
      dsimp only
      rw [Node.depth, Node.normalized]
      split_ifs with hstack
      · exact stackExceeded_eq_outcome (by omega) _
      · cases members with
        | nil =>
            obtain ⟨fuel, rfl⟩ := Nat.exists_eq_add_one.mpr (by omega : 0 < fuel)
            rw [outcome_of_le (by rw [membersDepth]; omega), writeMembers, List.nil_append,
              readObject]
            simp only [readTokenSkippingComments_eq (readToken_objectEnd rest) nofun]
            rfl
        | cons member members =>
            obtain ⟨name, value⟩ := member
            rw [readObject_writeMembers name value members hv.1 hv.2 [] nofun [] (by omega),
              List.nil_append, outcome_succ]
termination_by fuel

theorem readElements_writeElements (value : Node ρ) (values : List (Node ρ))
    (hv : ElementsRegular D (value :: values)) (before : List (Node ρ)) {rest : List Octet}
    {errors : List (List Octet)} {fuel nodes : ℕ}
    (hfuel : 2 * (writeElements D true (value :: values)).length + 1 ≤ fuel) :
    readElements D fuel nodes before
        ⟨writeElements D true (value :: values) ++ 0x5D :: rest, errors⟩ =
      outcome (nodes + 1) (elementsDepth (value :: values))
        (.arrayValue (before ++ normalizedElements D (value :: values))) rest errors := by
  obtain ⟨fuel, rfl⟩ := Nat.exists_eq_add_one.mpr (by omega : 0 < fuel)
  rw [writeElements, separator, if_pos rfl, List.nil_append] at hfuel ⊢
  rw [List.length_append] at hfuel
  have hvalue : readValue D fuel (nodes + 1)
      ⟨writeValue D value ++ (writeElements D false values ++ 0x5D :: rest), errors⟩ = _ :=
    readValue_writeValue value hv.1 (by omega) (writeElements_ends values rest)
  rw [List.append_assoc, elementsDepth, normalizedElements]
  by_cases hdepth : nodes + 1 + value.depth ≤ stackLimit + 1
  · rw [outcome_of_le hdepth] at hvalue
    match values, hv.2 with
    | [], _ =>
        rw [readElements_end hvalue, outcome_of_le (by rw [elementsDepth]; omega),
          normalizedElements]
    | next :: values, hrest =>
        have hlen : (writeElements D false (next :: values)).length =
            (writeElements D true (next :: values)).length + 1 := rfl
        rw [readElements_next hvalue]
        refine Eq.trans (readElements_writeElements next values hrest _ (by omega)) ?_
        rw [List.append_assoc, List.singleton_append, outcome, outcome]
        split_ifs <;> first | rfl | omega
  · rw [← stackExceeded_eq_outcome (by omega)] at hvalue
    rw [readElements, hvalue]
    exact stackExceeded_eq_outcome (by omega) _
termination_by fuel

theorem readObject_writeMembers (name : List Octet) (value : Node ρ)
    (members : List (List Octet × Node ρ))
    (hsorted : SortedMap.Sorted Value.memberRank ((name, value) :: members))
    (hv : MembersRegular D ((name, value) :: members)) (before : List (List Octet × Node ρ))
    (hbefore : ∀ e ∈ before, ∀ e' ∈ (name, value) :: members,
      Value.memberRank e.1 < Value.memberRank e'.1)
    (previous : List Octet) {rest : List Octet} {errors : List (List Octet)} {fuel nodes : ℕ}
    (hfuel : 2 * (writeMembers D true ((name, value) :: members)).length + 1 ≤ fuel) :
    readObject D fuel nodes previous before
        ⟨writeMembers D true ((name, value) :: members) ++ 0x7D :: rest, errors⟩ =
      outcome (nodes + 1) (membersDepth ((name, value) :: members))
        (.objectValue (before ++ normalizedMembers D ((name, value) :: members))) rest errors := by
  obtain ⟨fuel, rfl⟩ := Nat.exists_eq_add_one.mpr (by omega : 0 < fuel)
  obtain ⟨⟨hname, hlength⟩, hregular, hmembers⟩ := hv
  obtain ⟨hfirst, hsorted⟩ := List.pairwise_cons.mp hsorted
  have hlen : (writeMembers D true ((name, value) :: members)).length =
      (valueToQuotedString name).length +
        (1 + ((writeValue D value).length + (writeMembers D false members).length)) := by
    simp only [writeMembers, separator, if_true, List.nil_append, List.length_append,
      List.length_cons]
    omega
  have htext : writeMembers D true ((name, value) :: members) ++ 0x7D :: rest =
      valueToQuotedString name ++
        (0x3A :: (writeValue D value ++ (writeMembers D false members ++ 0x7D :: rest))) := by
    simp only [writeMembers, separator, if_true, List.nil_append, List.append_assoc,
      List.cons_append]
  -- The member goes behind the ones that are there.
  have hset : setNode before name (value.normalized D) =
      before ++ [(name, value.normalized D)] := by
    rw [setNode, Value.czString_eq hlength,
      SortedMap.insert_of_lt fun e he => hbefore e he _ List.mem_cons_self]
  have hvalue : readValue D fuel (nodes + 1)
      ⟨writeValue D value ++ (writeMembers D false members ++ 0x7D :: rest), errors⟩ = _ :=
    readValue_writeValue value hregular (by omega) (writeMembers_ends members rest)
  rw [htext, membersDepth, normalizedMembers]
  by_cases hdepth : nodes + 1 + value.depth ≤ stackLimit + 1
  · rw [outcome_of_le hdepth] at hvalue
    match members, hmembers, hfirst, hsorted with
    | [], _, _, _ =>
        rw [readObject_end hname hvalue, hset, outcome_of_le (by rw [membersDepth]; omega),
          normalizedMembers]
    | (next, value') :: members, hmembers, hfirst, hsorted =>
        have hlen' : (writeMembers D false ((next, value') :: members)).length =
            (writeMembers D true ((next, value') :: members)).length + 1 := rfl
        have hbefore' : ∀ e ∈ before ++ [(name, value.normalized D)],
            ∀ e' ∈ (next, value') :: members,
              Value.memberRank e.1 < Value.memberRank e'.1 := by
          intro e he e' he'
          rcases List.mem_append.mp he with he | he
          · exact hbefore e he e' (List.mem_cons_of_mem _ he')
          · rw [List.mem_singleton.mp he]
            exact hfirst e' he'
        rw [readObject_next hname hvalue, hset]
        refine Eq.trans (readObject_writeMembers next value' members hsorted hmembers _ hbefore'
          name (by omega)) ?_
        rw [List.append_assoc, List.singleton_append, outcome, outcome]
        split_ifs <;> first | rfl | omega
  · rw [← stackExceeded_eq_outcome (by omega)] at hvalue
    rw [readObject_name hname, hvalue]
    exact stackExceeded_eq_outcome (by omega) _
termination_by fuel

end

theorem readValue_write (v : Node ρ) (hv : v.IsRegular D) :
    readValue D (fuelFor (write D v)) 1 ⟨write D v, []⟩ =
      outcome 1 v.depth (v.normalized D) [0x0A] [] := by
  refine readValue_writeValue v hv ?_ (ends_cons (by decide) [])
  rw [fuelFor, write, List.length_append]
  omega

/-- The text of a value is accepted, without a message, as the value that the reader makes of it,
unless the value is nested deeper than the stack of the reader may grow. -/
theorem parse_write (v : Node ρ) (hv : v.IsRegular D) : parse D (write D v) =
    if v.depth ≤ stackLimit then .ok (some (v.normalized D), [])
    else .error (.fault (except "Exceeded stackLimit in readValue()." .defaultErrorCode)) := by
  rw [parse, readValue_write v hv, outcome]
  split_ifs <;> first | rfl | omega

/-- A C library that knows one double. -/
def large : Doubles ℚ where
  isfinite _ := true
  isnan _ := false
  isinf _ := false
  isNegative value := value < 0
  sprintf _ := Value.name "1e+22"
  extract text := (text = Value.name "1e+22", 10 ^ 22)
  max := (2 ^ 53 - 1) * 2 ^ 971
  lowest := -((2 ^ 53 - 1) * 2 ^ 971)
  infinity := 2 ^ 1024
  minusInfinity := -2 ^ 1024

theorem large_reads : large.Reads (10 ^ 22) := by
  have htext : realToString large (10 ^ 22) = Value.name "1e+22" := by decide
  have hmax : (0 : ℚ) < (2 ^ 53 - 1) * 2 ^ 971 := mul_pos (by norm_num) (by positivity)
  refine ⟨fun _ => ?_, nofun, (neg_lt_self hmax).ne⟩
  rw [htext]
  refine ⟨⟨.inl (by decide), fun rest hrest => ?_⟩, ⟨0x65, by decide, .inr rfl⟩, rfl⟩
  exact @readNumber_exponent [] [0x32, 0x32] rest nofun (by decide) hrest

/-- `{"a":[1e+22,-1],"b":"x"}`. -/
def largeValue : Node ℚ :=
  .objectValue [(Value.name "a", .arrayValue [.realValue (10 ^ 22), .intValue (-1)]),
    (Value.name "b", .stringValue ⟨Value.name "x", by decide⟩)]

theorem largeValue_isRegular : largeValue.IsRegular large := by
  have htext (c : Char) (h : c.toNat < 128) : IsText [BitVec.ofNat 8 c.toNat] :=
    ⟨[c], by rw [Utf8.encode_cons, Utf8.encodeChar_of_ascii h]; rfl⟩
  refine ⟨?_, ⟨htext 'a' (by decide), by decide⟩, ⟨large_reads, trivial, trivial⟩,
    ⟨htext 'b' (by decide), by decide⟩, htext 'x' (by decide), trivial⟩
  exact List.pairwise_pair.mpr (by decide)

theorem parse_write_largeValue : largeValue.IsRegular large ∧
    parse large (write large largeValue) = .ok (some (largeValue.normalized large), []) :=
  ⟨largeValue_isRegular, parse_write largeValue largeValue_isRegular⟩

end Esnacc.SJson
