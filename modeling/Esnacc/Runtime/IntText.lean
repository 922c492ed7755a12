import Esnacc.Runtime.IntStore
import Esnacc.Runtime.Word

/-!
An integer from its text. Hexadecimal digits are joined to octets two by two, from the left, and a
digit without a partner is dropped; a decimal number is converted to `long` and cut to `int`,
after a look at the number of its digits and the first two of them.
-/

namespace Esnacc.AsnInt

open BitString

/-! ### The constructor -/

/-- The cases of the loop for one digit. -/
def hexDigit (c : Char) : Option Octet :=
  if 48 ≤ c.toNat ∧ c.toNat ≤ 57 then some (BitVec.ofNat 8 (c.toNat - 48))
  else if 65 ≤ c.toNat ∧ c.toNat ≤ 70 then some (BitVec.ofNat 8 (c.toNat - 65 + 10))
  else if 97 ≤ c.toNat ∧ c.toNat ≤ 102 then some (BitVec.ofNat 8 (c.toNat - 97 + 10))
  else none

/-- The loop over the digits: `prevDigit` is there where `flag` is set. There is no result where
another character ends the constructor. -/
def hexLoop : List Char → Option Octet → List Octet → Option (List Octet)
  | [], _, localBytes => some localBytes
  | c :: str, prevDigit, localBytes =>
      match hexDigit c with
      | none => none
      | some digit =>
          match prevDigit with
          | none => hexLoop str (some digit) localBytes
          | some prev => hexLoop str none (localBytes ++ [prev <<< 4 ||| digit])

/-- The branch for `radix == 16`, with the digits that are left to read. -/
def ofHex (str : List Char) (unsignedFlag : Bool) : Except Fault AsnInt :=
  match hexLoop str none [] with
  | none => .ok cleared
  | some [] => .error (.undefinedBehaviour "first element of an empty vector")
  | some localBytes => storeDERInteger localBytes unsignedFlag

/-- The test that throws for a decimal number out of range; the positions are those of the text. -/
def decimalTooBig (str : List Char) : Bool :=
  let at_ (i : ℕ) : ℕ := (str.getD i '\x00').toNat
  (11 ≤ str.length && at_ 0 != 45) ||
    (str.length == 11 && at_ 0 == 45 && 50 ≤ at_ 1 && 49 ≤ at_ 2) ||
    (str.length == 10 && 50 ≤ at_ 0 && 49 ≤ at_ 1)

def isDigit (c : Char) : Bool := 48 ≤ c.toNat && c.toNat ≤ 57

/-- The number that decimal digits denote. -/
def decimalValue (ds : List Char) : ℕ := Nat.ofDigits 10 (ds.reverse.map fun c => c.toNat - 48)

/-- `atol`, whose result is not defined where it does not fit. -/
def atol (str : List Char) : Except Fault ℤ :=
  let str := str.dropWhile fun c => c = ' ' || (9 ≤ c.toNat && c.toNat ≤ 13)
  let value : ℤ :=
    match str with
    | '-' :: ds => -(decimalValue (ds.takeWhile isDigit) : ℤ)
    | '+' :: ds => decimalValue (ds.takeWhile isDigit)
    | ds => decimalValue (ds.takeWhile isDigit)
  if -2 ^ 63 ≤ value ∧ value < 2 ^ 63 then .ok value
  else .error (.undefinedBehaviour "result of atol is not representable")

def ofDecimal (str : List Char) : Except Fault AsnInt :=
  if decimalTooBig str then
    .error (except "decimal string is too big to convert to an integer" .integerError)
  else do
    let l ← atol str
    set (toInt32 l)

/-- `AsnInt(const char*, bool)`. -/
def ofText (str : List Char) (unsignedFlag : Bool) : Except Fault AsnInt :=
  if str.length = 0 then .ok cleared
  else if str.getLastD '\x00' = 'h' ∨ str.getLastD '\x00' = 'H' then
    if str.headD '\x00' ≠ '\x27' ∧ str.length = 1 then
      .error (.undefinedBehaviour "access behind the string")
    else if str.headD '\x00' ≠ '\x27' ∧ str.getD (str.length - 2) '\x00' ≠ '\x27' then .ok cleared
    else ofHex ((str.take (str.length - 2)).drop 1) unsignedFlag
  else if str.take 2 = ['0', 'x'] then ofHex (str.drop 2) unsignedFlag
  else ofDecimal str

/-! ### Literals -/

/-- Digits of one kind, at least one. -/
structure Digits (kind : Char → Bool) where
  chars : List Char
  ne_nil : chars ≠ []
  all : ∀ c ∈ chars, kind c = true

inductive Literal
  | decimal (isNegative : Bool) (digits : Digits isDigit)
  | hexPrefixed (digits : Digits fun c => (hexDigit c).isSome)
  | hexQuoted (digits : Digits fun c => (hexDigit c).isSome)

/-- The number that hexadecimal digits denote. -/
def hexValue (ds : List Char) : ℕ :=
  Nat.ofDigits 16 ((ds.filterMap hexDigit).reverse.map BitVec.toNat)

namespace Literal

def text : Literal → List Char
  | decimal isNegative digits => (if isNegative then ['-'] else []) ++ digits.chars
  | hexPrefixed digits => '0' :: 'x' :: digits.chars
  | hexQuoted digits => '\x27' :: (digits.chars ++ ['\x27', 'H'])

def value : Literal → ℤ
  | decimal isNegative digits =>
      if isNegative then -(decimalValue digits.chars : ℤ) else decimalValue digits.chars
  | hexPrefixed digits => hexValue digits.chars
  | hexQuoted digits => hexValue digits.chars

/-- Hexadecimal digits in pairs, or so many that what is left of them without the last one does not
fit either, or nothing but zeros. -/
def PairsOfDigits (ds : List Char) : Prop :=
  ds.length % 2 = 0 ∨ 3 ≤ ds.length ∧ (hexValue ds = 0 ∨ 2 ^ 67 ≤ hexValue ds)

/-- A decimal number that `int` holds, or that is refused. -/
def Kept : Literal → Prop
  | decimal isNegative digits =>
      (-2 ^ 31 ≤ (decimal isNegative digits).value ∧ (decimal isNegative digits).value < 2 ^ 31) ∨
        decimalTooBig (decimal isNegative digits).text = true
  | hexPrefixed digits => PairsOfDigits digits.chars
  | hexQuoted digits => PairsOfDigits digits.chars

end Literal

/-- The integer is the one that was meant, or the call throws. -/
def YieldsOrThrows (r : Except Fault AsnInt) (v : ℤ) : Prop :=
  (∃ x, r = .ok x ∧ x.value = v) ∨ ∃ e, r = .error (.thrown e)

/-! ### Pairs of digits -/

/-- The octets that the loop makes of digits. -/
def pairs : List Octet → List Octet
  | prev :: digit :: rest => (prev <<< 4 ||| digit) :: pairs rest
  | _ => []

theorem hexDigit_lt {c : Char} {d : Octet} (h : hexDigit c = some d) : d.toNat < 16 := by
  rw [hexDigit] at h
  split_ifs at h with h0 hA ha <;>
    · cases h
      rw [BitVec.toNat_ofNat]
      omega

theorem hexLoop_eq (ds : List Char) (localBytes : List Octet)
    (h : ∀ c ∈ ds, (hexDigit c).isSome = true) :
    hexLoop ds none localBytes = some (localBytes ++ pairs (ds.filterMap hexDigit)) := by
  match ds with
  | [] => simp [hexLoop, pairs]
  | [c] =>
      obtain ⟨p, hp⟩ := Option.isSome_iff_exists.mp (h c (by simp))
      simp [hexLoop, hp, pairs]
  | c :: d :: rest =>
      obtain ⟨p, hp⟩ := Option.isSome_iff_exists.mp (h c (by simp))
      obtain ⟨q, hq⟩ := Option.isSome_iff_exists.mp (h d (by simp))
      have ih := hexLoop_eq rest (localBytes ++ [p <<< 4 ||| q])
        (fun e he => h e (by simp [he]))
      simp [hexLoop, hp, hq, pairs, ih]

theorem toNat_pair {p d : Octet} (hp : p.toNat < 16) (hd : d.toNat < 16) :
    (p <<< 4 ||| d).toNat = 16 * p.toNat + d.toNat := by
  have hor := Nat.shiftLeft_add_eq_or_of_lt (show d.toNat < 2 ^ 4 by omega) p.toNat
  rw [BitVec.toNat_or, BitVec.toNat_shiftLeft, Nat.mod_eq_of_lt (by rw [Nat.shiftLeft_eq]; omega),
    ← hor, Nat.shiftLeft_eq]
  omega

/-- The number of hexadecimal digits, and what their octets keep of it. -/
def digitsValue (vs : List Octet) : ℕ := Nat.ofDigits 16 (vs.reverse.map BitVec.toNat)

theorem digitsValue_cons (d : Octet) (vs : List Octet) :
    digitsValue (d :: vs) = d.toNat * 16 ^ vs.length + digitsValue vs := by
  simp only [digitsValue, List.reverse_cons, List.map_append, List.map_cons, List.map_nil,
    Nat.ofDigits_append, Nat.ofDigits_singleton, List.length_map, List.length_reverse]
  ring

/-- The octets keep the number up to the digit without a partner. -/
theorem digitsValue_eq (vs : List Octet) (h : ∀ d ∈ vs, d.toNat < 16) :
    2 * (pairs vs).length = vs.length - vs.length % 2 ∧
      ∃ r < 16 ^ (vs.length % 2),
        digitsValue vs = natOfOctets (pairs vs) * 16 ^ (vs.length % 2) + r := by
  match vs with
  | [] => exact ⟨rfl, 0, by simp, rfl⟩
  | [d] =>
      refine ⟨rfl, d.toNat, h d (by simp), ?_⟩
      simp [digitsValue, pairs]
  | p :: d :: rest =>
      obtain ⟨hlen, r, hr, hrest⟩ := digitsValue_eq rest (fun e he => h e (by simp [he]))
      have hpair := toNat_pair (h p (by simp)) (h d (by simp))
      have hmod : (p :: d :: rest).length % 2 = rest.length % 2 := by simp; omega
      have hpow : (16 : ℕ) ^ rest.length = 256 ^ (pairs rest).length * 16 ^ (rest.length % 2) := by
        rw [show (256 : ℕ) = 16 ^ 2 by norm_num, ← pow_mul, ← pow_add, hlen]
        congr 1
        omega
      rw [hmod]
      refine ⟨by simp [pairs]; omega, r, hr, ?_⟩
      rw [digitsValue_cons, digitsValue_cons, List.length_cons, pow_succ, hrest, pairs,
        natOfOctets_cons, hpair, hpow]
      ring

theorem hexValue_eq (ds : List Char) : hexValue ds = digitsValue (ds.filterMap hexDigit) := rfl

theorem length_filterMap_hexDigit {ds : List Char} (h : ∀ c ∈ ds, (hexDigit c).isSome = true) :
    (ds.filterMap hexDigit).length = ds.length :=
  List.filterMap_length_eq_length.mpr h

/-- Octets that are read as unsigned are stored as their number, or there is an exception. -/
theorem storeDERInteger_unsigned {pData : List Octet} (h : pData ≠ []) :
    if natOfOctets pData < 2 ^ 63 then
      ∃ x, storeDERInteger pData true = .ok x ∧ x.value = natOfOctets pData
    else ∃ e, storeDERInteger pData true = .error (.thrown e) := by
  split
  · next hlt =>
      have hdenoted : denoted pData true = natOfOctets pData := rfl
      have hstorable : Storable pData true :=
        ⟨h, by rw [hdenoted]; omega, by rw [hdenoted]; exact_mod_cast hlt⟩
      obtain ⟨x, hx, -, hvalue⟩ := (storesShortest_iff pData true).mpr hstorable
      exact ⟨x, hx, hvalue⟩
  · next hge =>
      have hlong : 8 < (derOctets pData true).length := by
        by_contra hle
        have hbounds := ((shortest_derOctets_unsigned h).length_le_iff (by decide : 0 < 8)).mp
          (Nat.not_lt.mp hle)
        rw [intOfOctets_derOctets_unsigned] at hbounds
        omega
      refine ⟨⟨"integer is too big for conversion to long long", .integerError⟩, ?_⟩
      simp only [storeDERInteger, getLongLong, tryGetInt64, if_pos hlong, bind, Except.bind]
      rfl

/-- Hexadecimal digits give their number where they are paired, or where what is left of them is
too large or zero. -/
theorem ofHex_yields_iff {ds : List Char} (hne : ds ≠ [])
    (h : ∀ c ∈ ds, (hexDigit c).isSome = true) :
    YieldsOrThrows (ofHex ds true) (hexValue ds) ↔ Literal.PairsOfDigits ds := by
  have hlen := length_filterMap_hexDigit h
  have hpos := List.length_pos_of_ne_nil hne
  have hdigits : ∀ d ∈ ds.filterMap hexDigit, d.toNat < 16 := by
    intro d hd
    obtain ⟨c, -, hc⟩ := List.mem_filterMap.mp hd
    exact hexDigit_lt hc
  obtain ⟨hpairs, r, hr, hvalue⟩ := digitsValue_eq _ hdigits
  rw [hlen] at hpairs hr hvalue
  rw [ofHex, hexLoop_eq ds [] h, List.nil_append, hexValue_eq, Literal.PairsOfDigits, hexValue_eq]
  generalize digitsValue (ds.filterMap hexDigit) = v at hvalue
  cases hoctets : pairs (ds.filterMap hexDigit) with
  | nil =>
      -- one digit: the vector of octets stays empty
      have hone : ds.length = 1 := by
        rw [hoctets] at hpairs
        simp at hpairs
        omega
      refine iff_of_false ?_ (by omega)
      rintro (⟨x, hx, -⟩ | ⟨e, he⟩)
      · cases hx
      · cases he
  | cons o os =>
      rw [hoctets] at hpairs hvalue
      have hstore := storeDERInteger_unsigned (List.cons_ne_nil o os)
      have hlong : 2 ≤ ds.length := by
        rw [List.length_cons] at hpairs
        omega
      show YieldsOrThrows (storeDERInteger (o :: os) true) v ↔ _
      generalize natOfOctets (o :: os) = kept at hvalue hstore
      -- the number is what is kept, with one digit more where their number is odd
      have hkept : v = kept ∧ ds.length % 2 = 0 ∨
          (16 * kept ≤ v ∧ v < 16 * kept + 16) ∧ 3 ≤ ds.length ∧ ds.length % 2 = 1 := by
        rcases Nat.mod_two_eq_zero_or_one ds.length with heven | hodd
        · rw [heven] at hr hvalue
          exact Or.inl ⟨by omega, heven⟩
        · rw [hodd] at hr hvalue
          exact Or.inr ⟨by omega, by omega, hodd⟩
      split at hstore
      · obtain ⟨x, hx, hxv⟩ := hstore
        rw [hx]
        have hyield : YieldsOrThrows (.ok x) v ↔ (kept : ℤ) = v := by
          constructor
          · rintro (⟨y, hy, hyv⟩ | ⟨e, he⟩)
            · cases hy
              rw [← hxv, hyv]
            · cases he
          · intro heq
            exact Or.inl ⟨x, rfl, hxv.trans heq⟩
        rw [hyield]
        omega
      · obtain ⟨e, he⟩ := hstore
        rw [he]
        exact iff_of_true (Or.inr ⟨e, rfl⟩) (by omega)

/-! ### Decimal numbers -/

theorem atol_eq (isNegative : Bool) (digits : Digits isDigit) :
    atol (Literal.decimal isNegative digits).text =
      if -2 ^ 63 ≤ (Literal.decimal isNegative digits).value ∧
          (Literal.decimal isNegative digits).value < 2 ^ 63 then
        .ok (Literal.decimal isNegative digits).value
      else .error (.undefinedBehaviour "result of atol is not representable") := by
  obtain ⟨ds, hne, hall⟩ := digits
  cases ds with
  | nil => exact absurd rfl hne
  | cons c ds =>
      have htake : (c :: ds).takeWhile isDigit = c :: ds := List.takeWhile_eq_self_iff.mpr hall
      have hc := hall c (by simp)
      simp only [isDigit, Bool.and_eq_true, decide_eq_true_eq] at hc
      cases isNegative with
      | true => simp [atol, Literal.text, Literal.value, htake]
      | false =>
          have hspace : c ≠ ' ' := by
            rintro rfl
            exact absurd hc.1 (by decide)
          have hminus : c ≠ '-' := by
            rintro rfl
            exact absurd hc.1 (by decide)
          have hplus : c ≠ '+' := by
            rintro rfl
            exact absurd hc.1 (by decide)
          have hblank : ¬ c.toNat ≤ 13 := by omega
          simp [atol, Literal.text, Literal.value, htake, hspace, hminus, hplus, hblank]

/-- A decimal number is cut to `int` unless it is refused. -/
theorem ofDecimal_yields_iff (isNegative : Bool) (digits : Digits isDigit) :
    YieldsOrThrows (ofDecimal (Literal.decimal isNegative digits).text)
        (Literal.decimal isNegative digits).value ↔
      (Literal.decimal isNegative digits).Kept := by
  rw [ofDecimal, Literal.Kept]
  split
  · next hbig => exact iff_of_true (Or.inr ⟨_, rfl⟩) (Or.inr hbig)
  · next hsmall =>
      rw [or_iff_left hsmall, atol_eq]
      generalize (Literal.decimal isNegative digits).value = v
      split
      · -- the number is cut to `int`
        have hset := (set_eq (le_toInt32 v) (toInt32_lt v)).1
        show YieldsOrThrows (set (toInt32 v)) v ↔ _
        rw [hset]
        have hvalue : intOfOctets (derOctets (bigEndian (toInt32 v)) (0 ≤ toInt32 v)) = toInt32 v :=
          (set_eq (le_toInt32 v) (toInt32_lt v)).2.1
        constructor
        · rintro (⟨x, hx, hxv⟩ | ⟨e, he⟩)
          · cases hx
            have hcut : toInt32 v = v := hvalue.symm.trans hxv
            rw [← hcut]
            exact ⟨le_toInt32 v, toInt32_lt v⟩
          · cases he
        · rintro ⟨hge, hlt⟩
          exact Or.inl ⟨_, rfl, hvalue.trans (toInt32_eq hge hlt)⟩
      · next hrange =>
          refine iff_of_false ?_ fun hint => hrange ⟨by omega, by omega⟩
          rintro (⟨x, hx, -⟩ | ⟨e, he⟩)
          · cases hx
          · cases he

/-! ### Literals -/

theorem getLastD_ne_h {ds : List Char} (hne : ds ≠ []) {kind : Char → Bool}
    (hall : ∀ c ∈ ds, kind c = true) (hh : kind 'h' = false) (hH : kind 'H' = false)
    (front : List Char) :
    ¬ ((front ++ ds).getLastD '\x00' = 'h' ∨ (front ++ ds).getLastD '\x00' = 'H') := by
  have hlast : (front ++ ds).getLastD '\x00' = ds.getLast hne := by
    rw [List.getLastD_eq_getLast?, List.getLast?_append_of_ne_nil front hne,
      List.getLast?_eq_some_getLast hne]
    rfl
  have hkind := hall _ (List.getLast_mem hne)
  rw [hlast]
  rintro (h | h)
  · rw [h, hh] at hkind
    cases hkind
  · rw [h, hH] at hkind
    cases hkind

/-- The branch of the constructor that each form of literal takes. -/
theorem ofText_decimal (isNegative : Bool) (digits : Digits isDigit) (unsignedFlag : Bool) :
    ofText (Literal.decimal isNegative digits).text unsignedFlag =
      ofDecimal (Literal.decimal isNegative digits).text := by
  obtain ⟨ds, hne, hall⟩ := digits
  have hlast : ¬ ((Literal.decimal isNegative ⟨ds, hne, hall⟩).text.getLastD '\x00' = 'h' ∨
      (Literal.decimal isNegative ⟨ds, hne, hall⟩).text.getLastD '\x00' = 'H') :=
    getLastD_ne_h hne hall (by decide) (by decide) _
  have hlen : ¬ (Literal.decimal isNegative ⟨ds, hne, hall⟩).text.length = 0 := by
    have hpos := List.length_pos_of_ne_nil hne
    simp only [Literal.text, List.length_append]
    omega
  have hprefix : ¬ (Literal.decimal isNegative ⟨ds, hne, hall⟩).text.take 2 = ['0', 'x'] := by
    intro hx
    have hmem : 'x' ∈ (if isNegative then ['-'] else []) ++ ds := by
      refine List.mem_of_mem_take (i := 2) ?_
      rw [show ((if isNegative then ['-'] else []) ++ ds).take 2 = ['0', 'x'] from hx]
      simp
    rcases List.mem_append.mp hmem with h | h
    · cases isNegative <;> simp at h
    · exact absurd (hall _ h) (by decide)
  rw [ofText, if_neg hlen, if_neg hlast, if_neg hprefix]

theorem ofText_hexPrefixed (digits : Digits fun c => (hexDigit c).isSome) (unsignedFlag : Bool) :
    ofText (Literal.hexPrefixed digits).text unsignedFlag = ofHex digits.chars unsignedFlag := by
  obtain ⟨ds, hne, hall⟩ := digits
  have hlast : ¬ ((Literal.hexPrefixed ⟨ds, hne, hall⟩).text.getLastD '\x00' = 'h' ∨
      (Literal.hexPrefixed ⟨ds, hne, hall⟩).text.getLastD '\x00' = 'H') :=
    getLastD_ne_h hne hall (by decide) (by decide) ['0', 'x']
  have hlen : ¬ (Literal.hexPrefixed ⟨ds, hne, hall⟩).text.length = 0 := Nat.succ_ne_zero _
  have hprefix : (Literal.hexPrefixed ⟨ds, hne, hall⟩).text.take 2 = ['0', 'x'] := rfl
  rw [ofText, if_neg hlen, if_neg hlast, if_pos hprefix]
  rfl

theorem ofText_hexQuoted (digits : Digits fun c => (hexDigit c).isSome) (unsignedFlag : Bool) :
    ofText (Literal.hexQuoted digits).text unsignedFlag = ofHex digits.chars unsignedFlag := by
  obtain ⟨ds, hne, hall⟩ := digits
  have hlen : ¬ (Literal.hexQuoted ⟨ds, hne, hall⟩).text.length = 0 := Nat.succ_ne_zero _
  have hlast : (Literal.hexQuoted ⟨ds, hne, hall⟩).text.getLastD '\x00' = 'H' := by
    have happend : (Literal.hexQuoted ⟨ds, hne, hall⟩).text =
        '\x27' :: (ds ++ ['\x27']) ++ ['H'] := by
      simp [Literal.text]
    rw [happend, List.getLastD_eq_getLast?, List.getLast?_concat]
    rfl
  have hquote : (Literal.hexQuoted ⟨ds, hne, hall⟩).text.headD '\x00' = '\x27' := rfl
  have hdigits : ((Literal.hexQuoted ⟨ds, hne, hall⟩).text.take
      ((Literal.hexQuoted ⟨ds, hne, hall⟩).text.length - 2)).drop 1 = ds := by
    simp [Literal.text]
  rw [ofText, if_neg hlen, if_pos (Or.inr hlast), if_neg (fun h => h.1 hquote),
    if_neg (fun h => h.1 hquote), hdigits]

/-- The texts whose integer is kept. -/
theorem ofText_correct_iff (lit : Literal) :
    YieldsOrThrows (ofText lit.text true) lit.value ↔ lit.Kept := by
  cases lit with
  | decimal isNegative digits =>
      rw [ofText_decimal]
      exact ofDecimal_yields_iff isNegative digits
  | hexPrefixed digits =>
      rw [ofText_hexPrefixed]
      exact ofHex_yields_iff digits.ne_nil digits.all
  | hexQuoted digits =>
      rw [ofText_hexQuoted]
      exact ofHex_yields_iff digits.ne_nil digits.all

/-- `0xFFF` is 255. -/
theorem not_ofText_correct :
    ¬ ∀ lit : Literal, YieldsOrThrows (ofText lit.text true) lit.value := by
  intro hall
  have hdigits : ∀ c ∈ ['F', 'F', 'F'], (hexDigit c).isSome = true := by simp [hexDigit]
  have hnumber : hexValue ['F', 'F', 'F'] = 4095 := by simp [hexValue, hexDigit, Nat.ofDigits]
  have hyield := hall (.hexPrefixed ⟨['F', 'F', 'F'], by simp, hdigits⟩)
  rw [ofText_hexPrefixed] at hyield
  have hpairs := (ofHex_yields_iff (by simp) hdigits).mp hyield
  rw [Literal.PairsOfDigits, hnumber] at hpairs
  norm_num at hpairs

end Esnacc.AsnInt
