import Mathlib
import Esnacc.Lib.BitString
import Esnacc.Lib.Utf8

/-!
UTF8Strings of the C runtime, with a `wchar_t` of 32 bits. One table has the masks, values and
greatest characters of the forms with one to six octets; both directions look up the form in it.
The indices are of the type `unsigned int`.
-/

namespace Esnacc.CLib.Utf8String

open BitString

structure MaskValue where
  mask : Octet
  value : Octet
  maxCharValue : ℕ

def gUTF8Masks : List MaskValue :=
  [⟨0x80, 0x00, 0x0000007F⟩, ⟨0xE0, 0xC0, 0x000007FF⟩, ⟨0xF0, 0xE0, 0x0000FFFF⟩,
    ⟨0xF8, 0xF0, 0x0001FFFF⟩, ⟨0xFC, 0xF8, 0x03FFFFFF⟩, ⟨0xFE, 0xFC, 0x07FFFFFF⟩]

def maskOf (j : ℕ) : Octet := (gUTF8Masks.map MaskValue.mask).getD j 0

def valueOf (j : ℕ) : Octet := (gUTF8Masks.map MaskValue.value).getD j 0

/-- The number of octets that should follow, or 6. -/
def formOf (octet : Octet) : ℕ := gUTF8Masks.findIdx fun m => m.mask &&& octet == m.value

def formFor (temp_wchar : ℤ) : ℕ :=
  gUTF8Masks.findIdx fun m => decide (temp_wchar ≤ m.maxCharValue)

def isSubsequent (octet : Octet) : Bool := octet &&& 0xC0 == 0x80

/-- The loop of `IsValidUTF8String`, with a pass for each octet at most. -/
def isValidLoop : ℕ → List Octet → Bool
  | _, [] => true
  | 0, _ :: _ => false
  | fuel + 1, octet :: octs =>
      let j := formOf octet
      if j = 6 ∨ octs.length < j then false
      else (octs.take j).all isSubsequent && isValidLoop fuel (octs.drop j)

def isValidUTF8String (octs : List Octet) : Bool := isValidLoop octs.length octs

/-- What a string function sees. -/
def cString (buf : List Octet) : List Octet := buf.takeWhile (· ≠ 0)

/-! ### From UTF-8 -/

def octetAt (utf8Str : List Octet) (i : ℕ) : Octet := utf8Str.getD (i % 2 ^ 32) 0

def subsequent (utf8Str : List Octet) (i j : ℕ) : List Octet :=
  (List.range j).map fun k => octetAt utf8Str (i + 1 + k)

def wideChar (j : ℕ) (first : Octet) (octets : List Octet) : ℕ :=
  octets.foldl (fun c octet => c * 64 + (octet &&& 0x3F).toNat) (~~~maskOf j &&& first).toNat

/-- The loop of `CvtUTF8towchar`, which does not end if there is always fuel missing. -/
def towcharLoop (utf8Str : List Octet) : ℕ → (i : ℕ) → Option (Except ℤ (List ℤ))
  | 0, _ => none
  | fuel + 1, i =>
      if utf8Str.length ≤ i then some (.ok [])
      else
        let first := octetAt utf8Str i
        let j := formOf first
        let octets := subsequent utf8Str i j
        if j = 6 ∨ utf8Str.length ≤ (i + j) % 2 ^ 32 then some (.error (-3))
        else if octets.all isSubsequent then
          (towcharLoop utf8Str fuel ((i + 1 + j) % 2 ^ 32)).map fun r =>
            r.map ((wideChar j first octets : ℤ) :: ·)
        else some (.error (-3))

def cvtUTF8towchar (fuel : ℕ) (utf8Str : List Octet) : Option (Except ℤ (List ℤ)) :=
  towcharLoop (cString utf8Str) fuel 0

/-! ### To UTF-8 -/

inductive Stop
  | returned (code : ℤ)
  | outside
  deriving DecidableEq, Repr

def write (buf : List Octet) (index : ℕ) (octet : Octet) : Except Stop (List Octet) :=
  if index % 2 ^ 32 < buf.length then .ok (buf.set (index % 2 ^ 32) octet) else .error .outside

def subsequentOctet (temp_wchar : ℤ) : Octet := 0x80 ||| (BitVec.ofInt 8 temp_wchar &&& 0x3F)

def firstOctet (j : ℕ) (temp_wchar : ℤ) : Octet :=
  valueOf j ||| (~~~maskOf j &&& BitVec.ofInt 8 temp_wchar)

/-- The octets behind the first one, from right to left, and what is left of the character. -/
def writeSubsequent (x : ℕ) : (y : ℕ) → ℤ → List Octet → Except Stop (ℤ × List Octet)
  | 0, temp_wchar, buf => .ok (temp_wchar, buf)
  | y + 1, temp_wchar, buf =>
      (write buf (x + (y + 1)) (subsequentOctet temp_wchar)).bind fun buf =>
        writeSubsequent x y (temp_wchar >>> (6 : ℕ)) buf

def writeChar (x : ℕ) (temp_wchar : ℤ) (buf : List Octet) : Except Stop (ℕ × List Octet) :=
  let j := formFor temp_wchar
  if temp_wchar < 0 ∨ j = 6 then .error (.returned (-3))
  else (writeSubsequent x j temp_wchar buf).bind fun r =>
    (write r.2 x (firstOctet j r.1)).map fun buf => ((x + 1 + j) % 2 ^ 32, buf)

/-- The loop of `CvtWchar2UTF8`. -/
def toUtf8Loop (inStr : List ℤ) : ℕ → (i x : ℕ) → List Octet → Option (Except Stop (List Octet))
  | 0, _, _, _ => none
  | fuel + 1, i, x, buf =>
      match inStr[i]? with
      | none => some (.ok buf)
      | some temp_wchar =>
          match writeChar x temp_wchar buf with
          | .error stop => some (.error stop)
          | .ok r => toUtf8Loop inStr fuel ((i + 1) % 2 ^ 32) r.1 r.2

def cvtWchar2UTF8 (fuel : ℕ) (inStr : List ℤ) : Option (Except Stop (List Octet)) :=
  let inStr := inStr.takeWhile (· ≠ 0)
  toUtf8Loop inStr fuel 0 0 (List.replicate (inStr.length * 6 + 1) 0)

/-! ### The octets of a character -/

def subsequentOctets : ℕ → ℕ → List Octet
  | 0, _ => []
  | y + 1, w => subsequentOctets y (w / 64) ++ [subsequentOctet w]

/-- What is written for a character. -/
def charOctets (w : ℕ) : List Octet :=
  firstOctet (formFor w) (w / 64 ^ formFor w : ℕ) :: subsequentOctets (formFor w) w

theorem length_subsequentOctets (y w : ℕ) : (subsequentOctets y w).length = y := by
  induction y generalizing w with
  | zero => rfl
  | succ y ih => rw [subsequentOctets, List.length_append, ih, List.length_singleton]

theorem length_charOctets (w : ℕ) : (charOctets w).length = formFor w + 1 := by
  rw [charOctets, List.length_cons, length_subsequentOctets]

/-- The form of a character, for those that have one. -/
theorem formFor_cases (w : ℕ) :
    (formFor w = 0 ∧ w < 0x80) ∨ (formFor w = 1 ∧ 0x80 ≤ w ∧ w < 0x800) ∨
    (formFor w = 2 ∧ 0x800 ≤ w ∧ w < 0x10000) ∨ (formFor w = 3 ∧ 0x10000 ≤ w ∧ w < 0x20000) ∨
    (formFor w = 4 ∧ 0x20000 ≤ w ∧ w < 0x4000000) ∨
    (formFor w = 5 ∧ 0x4000000 ≤ w ∧ w < 0x8000000) ∨ (formFor w = 6 ∧ 0x8000000 ≤ w) := by
  simp only [formFor, gUTF8Masks, List.findIdx_cons, List.findIdx_nil, cond_eq_ite,
    decide_eq_true_eq]
  norm_cast
  split_ifs <;> omega

/-- The bits of a character in its first octet. -/
def leadBits (j : ℕ) : ℕ := if j = 0 then 7 else 6 - j

theorem formOf_lead (octet : Octet) : ∀ j < 6,
    formOf (valueOf j ||| (~~~maskOf j &&& octet)) = j ∧
      (~~~maskOf j &&& (valueOf j ||| (~~~maskOf j &&& octet))).toNat =
        octet.toNat % 2 ^ leadBits j := by
  revert octet
  decide

theorem subsequent_facts (octet : Octet) :
    isSubsequent (0x80 ||| (octet &&& 0x3F)) = true ∧
      ((0x80 ||| (octet &&& 0x3F)) &&& 0x3F : Octet).toNat = octet.toNat % 64 ∧
        (0x80 ||| (octet &&& 0x3F) : Octet) ≠ 0 := by
  revert octet
  decide

theorem toNat_ofInt (n : ℕ) : (BitVec.ofInt 8 n).toNat = n % 256 := by
  rw [BitVec.ofInt_natCast, BitVec.toNat_ofNat]

theorem formOf_firstOctet {j : ℕ} (h : j < 6) (temp_wchar : ℤ) :
    formOf (firstOctet j temp_wchar) = j :=
  (formOf_lead _ j h).1

theorem toNat_firstOctet {j n : ℕ} (h : j < 6) (hn : n < 2 ^ leadBits j) :
    (~~~maskOf j &&& firstOctet j n).toNat = n := by
  have hle : leadBits j ≤ 8 := by
    rw [leadBits]
    split <;> omega
  have hdvd : 2 ^ leadBits j ∣ 256 := pow_dvd_pow 2 hle
  rw [firstOctet, (formOf_lead _ j h).2, toNat_ofInt, Nat.mod_mod_of_dvd _ hdvd,
    Nat.mod_eq_of_lt hn]

theorem isSubsequent_subsequentOctets (y w : ℕ) :
    (subsequentOctets y w).all isSubsequent = true := by
  induction y generalizing w with
  | zero => rfl
  | succ y ih =>
      rw [subsequentOctets, List.all_append, ih, List.all_cons, List.all_nil, subsequentOctet,
        (subsequent_facts _).1]
      rfl

theorem foldl_subsequentOctets (y w c : ℕ) :
    (subsequentOctets y w).foldl (fun c octet => c * 64 + (octet &&& 0x3F).toNat) c =
      c * 64 ^ y + w % 64 ^ y := by
  induction y generalizing w with
  | zero => simp [subsequentOctets, Nat.mod_one]
  | succ y ih =>
      have hoctet : (subsequentOctet w &&& 0x3F).toNat = w % 64 := by
        rw [subsequentOctet, (subsequent_facts _).2.1, toNat_ofInt]
        omega
      rw [subsequentOctets, List.foldl_append, ih, List.foldl_cons, List.foldl_nil, hoctet,
        Nat.pow_succ', Nat.mod_mul]
      ring

/-- A character with a form is smaller than what the form can hold. -/
theorem div_formFor {w : ℕ} (h : formFor w < 6) :
    w / 64 ^ formFor w < 2 ^ leadBits (formFor w) := by
  rcases formFor_cases w with
    ⟨hj, hw⟩ | ⟨hj, hw⟩ | ⟨hj, hw⟩ | ⟨hj, hw⟩ | ⟨hj, hw⟩ | ⟨hj, hw⟩ | ⟨hj, hw⟩
  all_goals
    rw [hj] at h ⊢
    norm_num [leadBits]
    omega

theorem wideChar_charOctets {w : ℕ} (h : formFor w < 6) :
    wideChar (formFor w) (firstOctet (formFor w) (w / 64 ^ formFor w : ℕ))
      (subsequentOctets (formFor w) w) = w := by
  rw [wideChar, toNat_firstOctet h (div_formFor h), foldl_subsequentOctets]
  exact Nat.div_add_mod' w _

/-! ### Octets that are valid -/

theorem isValidLoop_charOctets (fuel : ℕ) {w : ℕ} (h : formFor w < 6) (rest : List Octet) :
    isValidLoop (fuel + 1) (charOctets w ++ rest) = isValidLoop fuel rest := by
  have hlen := length_subsequentOctets (formFor w) w
  have hshort : ¬ (formFor w = 6 ∨
      (subsequentOctets (formFor w) w ++ rest).length < formFor w) := by
    rw [List.length_append, hlen]
    omega
  rw [charOctets, List.cons_append, isValidLoop, formOf_firstOctet h, if_neg hshort,
    List.take_left' hlen, List.drop_left' hlen, isSubsequent_subsequentOctets, Bool.true_and]

theorem isValidLoop_flatMap {fuel : ℕ} {ws : List ℕ} (h : ∀ w ∈ ws, formFor w < 6)
    (hfuel : ws.length ≤ fuel) : isValidLoop fuel (ws.flatMap charOctets) = true := by
  induction ws generalizing fuel with
  | nil => cases fuel <;> rfl
  | cons w ws ih =>
      obtain ⟨fuel, rfl⟩ := Nat.exists_eq_succ_of_ne_zero (Nat.ne_zero_of_lt hfuel)
      rw [List.flatMap_cons, isValidLoop_charOctets fuel (h w List.mem_cons_self)]
      exact ih (fun w' hw' => h w' (List.mem_cons_of_mem w hw')) (Nat.le_of_succ_le_succ hfuel)

theorem length_le_flatMap (ws : List ℕ) : ws.length ≤ (ws.flatMap charOctets).length := by
  induction ws with
  | nil => exact Nat.le_refl 0
  | cons w ws ih =>
      rw [List.flatMap_cons, List.length_append, List.length_cons, length_charOctets]
      omega

/-! ### Reading -/

section Reading

variable {pre : List Octet}

theorem octetAt_append (rest : List Octet) {k : ℕ} (h : pre.length + k < 2 ^ 32) :
    octetAt (pre ++ rest) (pre.length + k) = rest.getD k 0 := by
  rw [octetAt, Nat.mod_eq_of_lt h, List.getD_append_right _ _ _ _ (Nat.le_add_right _ _),
    Nat.add_sub_cancel_left]

theorem subsequent_eq {first : Octet} {octs : List Octet}
    (hlen : (pre ++ first :: octs).length < 2 ^ 32) {j : ℕ} (hj : j ≤ octs.length) :
    subsequent (pre ++ first :: octs) pre.length j = octs.take j := by
  rw [List.length_append, List.length_cons] at hlen
  refine List.ext_getElem ?_ fun k hk hk' => ?_
  · simp [subsequent, hj]
  · have hlt : k < j := by
      simpa [subsequent] using hk
    have hat := @octetAt_append pre (first :: octs) (k + 1) (by omega)
    simp only [subsequent, List.getElem_map, List.getElem_range, List.getElem_take]
    rw [show pre.length + 1 + k = pre.length + (k + 1) by omega, hat, List.getD_cons_succ,
      List.getD_eq_getElem _ _ (by omega)]

/-- The zero at the end is no subsequent octet. -/
theorem not_all_subsequent {first : Octet} {octs : List Octet}
    (hlen : (pre ++ first :: octs).length < 2 ^ 32) {j : ℕ} (hj : octs.length < j) :
    (subsequent (pre ++ first :: octs) pre.length j).all isSubsequent = false := by
  rw [List.length_append, List.length_cons] at hlen
  have hat := @octetAt_append pre (first :: octs) (octs.length + 1) (by omega)
  rw [List.getD_cons_succ, List.getD_eq_default _ _ (Nat.le_refl _)] at hat
  rw [List.all_eq_false]
  refine ⟨0, List.mem_map.mpr ⟨octs.length, List.mem_range.mpr hj, ?_⟩, by decide⟩
  rw [← hat]
  congr 1
  omega

theorem towcharLoop_cons {first : Octet} {octs : List Octet}
    (hlen : (pre ++ first :: octs).length < 2 ^ 32) (fuel : ℕ) :
    towcharLoop (pre ++ first :: octs) (fuel + 1) pre.length =
      if formOf first = 6 ∨ octs.length < formOf first then some (.error (-3))
      else if (octs.take (formOf first)).all isSubsequent then
        (towcharLoop (pre ++ first :: octs) fuel (pre.length + 1 + formOf first)).map fun r =>
          r.map ((wideChar (formOf first) first (octs.take (formOf first)) : ℤ) :: ·)
      else some (.error (-3)) := by
  have hsum : (pre ++ first :: octs).length = pre.length + octs.length + 1 := by
    rw [List.length_append, List.length_cons]
    omega
  have hfirst : octetAt (pre ++ first :: octs) pre.length = first :=
    @octetAt_append pre (first :: octs) 0 (by omega)
  rw [towcharLoop, if_neg (by omega), hfirst]
  dsimp only
  rcases Nat.lt_or_ge octs.length (formOf first) with hlt | hge
  · rw [if_pos (Or.inr hlt), not_all_subsequent hlen hlt]
    simp
  · have hmod : (pre.length + formOf first) % 2 ^ 32 = pre.length + formOf first :=
      Nat.mod_eq_of_lt (by omega)
    rw [subsequent_eq hlen hge]
    simp only [hmod]
    rcases eq_or_ne (formOf first) 6 with hsix | hsix
    · rw [if_pos (Or.inl hsix), if_pos (Or.inl hsix)]
    · have hend : (pre.length + 1 + formOf first) % 2 ^ 32 = pre.length + 1 + formOf first :=
        Nat.mod_eq_of_lt (by omega)
      have hleft : ¬ (formOf first = 6 ∨
          (pre ++ first :: octs).length ≤ pre.length + formOf first) := by
        omega
      have hright : ¬ (formOf first = 6 ∨ octs.length < formOf first) := by
        omega
      rw [if_neg hleft, if_neg hright, hend]

theorem towcharLoop_nil (fuel : ℕ) :
    towcharLoop (pre ++ []) (fuel + 1) pre.length = some (.ok []) := by
  rw [List.append_nil, towcharLoop, if_pos (Nat.le_refl _)]

/-- What is valid is converted, and what is not is rejected. -/
theorem towcharLoop_isValid {rest : List Octet} (hlen : (pre ++ rest).length < 2 ^ 32) {n fuel : ℕ}
    (hn : rest.length ≤ n) (hfuel : rest.length < fuel) :
    isValidLoop n rest = true ∧
        (∃ out, towcharLoop (pre ++ rest) fuel pre.length = some (.ok out)) ∨
      isValidLoop n rest = false ∧
        towcharLoop (pre ++ rest) fuel pre.length = some (.error (-3)) := by
  induction fuel generalizing pre rest n with
  | zero => exact absurd hfuel (Nat.not_lt_zero _)
  | succ fuel ih =>
      rcases rest with _ | ⟨first, octs⟩
      · exact Or.inl ⟨by cases n <;> rfl, [], towcharLoop_nil fuel⟩
      · rw [List.length_cons] at hn hfuel
        obtain ⟨n, rfl⟩ := Nat.exists_eq_succ_of_ne_zero (Nat.ne_zero_of_lt hn)
        rw [towcharLoop_cons hlen, isValidLoop]
        split
        · exact Or.inr ⟨rfl, rfl⟩
        · next hform =>
          cases hall : (octs.take (formOf first)).all isSubsequent with
          | false => exact Or.inr ⟨rfl, rfl⟩
          | true =>
              have hle : formOf first ≤ octs.length := by
                omega
              have hsplit : pre ++ first :: octs =
                  (pre ++ first :: octs.take (formOf first)) ++ octs.drop (formOf first) := by
                rw [List.append_assoc, List.cons_append, List.take_append_drop]
              have hpre : (pre ++ first :: octs.take (formOf first)).length =
                  pre.length + 1 + formOf first := by
                rw [List.length_append, List.length_cons, List.length_take, Nat.min_eq_left hle]
                omega
              have hdrop : (octs.drop (formOf first)).length ≤ octs.length := by
                rw [List.length_drop]
                exact Nat.sub_le _ _
              have hrest := @ih (pre ++ first :: octs.take (formOf first))
                (octs.drop (formOf first)) (hsplit ▸ hlen) n (by omega) (by omega)
              rw [← hsplit, hpre] at hrest
              rw [Bool.true_and, if_pos rfl]
              rcases hrest with ⟨hvalid, out, hread⟩ | ⟨hvalid, hread⟩
              · exact Or.inl ⟨hvalid, _, by rw [hread]; rfl⟩
              · exact Or.inr ⟨hvalid, by rw [hread]; rfl⟩

theorem towcharLoop_flatMap {ws : List ℕ} (h : ∀ w ∈ ws, formFor w < 6)
    (hlen : (pre ++ ws.flatMap charOctets).length < 2 ^ 32) {fuel : ℕ} (hfuel : ws.length < fuel) :
    towcharLoop (pre ++ ws.flatMap charOctets) fuel pre.length =
      some (.ok (ws.map Nat.cast)) := by
  induction ws generalizing pre fuel with
  | nil =>
      obtain ⟨fuel, rfl⟩ := Nat.exists_eq_succ_of_ne_zero (Nat.ne_zero_of_lt hfuel)
      exact towcharLoop_nil fuel
  | cons w ws ih =>
      obtain ⟨fuel, rfl⟩ := Nat.exists_eq_succ_of_ne_zero (Nat.ne_zero_of_lt hfuel)
      have hw := h w List.mem_cons_self
      have hcount := length_subsequentOctets (formFor w) w
      have hassoc : pre ++ (w :: ws).flatMap charOctets =
          (pre ++ charOctets w) ++ ws.flatMap charOctets := by
        rw [List.flatMap_cons, List.append_assoc]
      have hpre : (pre ++ charOctets w).length = pre.length + 1 + formFor w := by
        rw [List.length_append, length_charOctets]
        omega
      have hrest := @ih (pre ++ charOctets w) (fun w' hw' => h w' (List.mem_cons_of_mem w hw'))
        (hassoc ▸ hlen) fuel (Nat.lt_of_succ_lt_succ hfuel)
      rw [← hassoc, hpre] at hrest
      have hcons : pre ++ (w :: ws).flatMap charOctets =
          pre ++ firstOctet (formFor w) (w / 64 ^ formFor w : ℕ) ::
            (subsequentOctets (formFor w) w ++ ws.flatMap charOctets) := by
        rw [List.flatMap_cons, charOctets, List.cons_append]
      rw [hcons] at hlen hrest ⊢
      rw [towcharLoop_cons hlen, formOf_firstOctet hw, if_neg, List.take_left' hcount,
        isSubsequent_subsequentOctets, if_pos rfl, wideChar_charOctets hw, hrest]
      · rfl
      · rw [List.length_append, hcount]
        omega

end Reading

/-- The index never gets to the end of 2^32 octets. -/
theorem towcharLoop_long {utf8Str : List Octet} (h : 2 ^ 32 ≤ utf8Str.length) (fuel : ℕ) {i : ℕ}
    (hi : i < 2 ^ 32) (out : List ℤ) : towcharLoop utf8Str fuel i ≠ some (.ok out) := by
  induction fuel generalizing i out with
  | zero => nofun
  | succ fuel ih =>
      rw [towcharLoop, if_neg (by omega)]
      dsimp only
      split_ifs
      · nofun
      · intro hread
        obtain ⟨r, hr, hout⟩ := Option.map_eq_some_iff.mp hread
        cases r with
        | error code => cases hout
        | ok out' => exact ih (Nat.mod_lt _ (by norm_num)) out' hr
      · nofun

/-! ### Writing -/

theorem shiftRight_six (w : ℕ) : (w : ℤ) >>> (6 : ℕ) = (w / 64 : ℕ) := by
  rw [Int.shiftRight_eq_div_pow]
  norm_num

theorem write_append {pre post : List Octet} {old octet : Octet} (h : pre.length < 2 ^ 32) :
    write (pre ++ old :: post) pre.length octet = .ok (pre ++ octet :: post) := by
  rw [write, Nat.mod_eq_of_lt h, if_pos (by simp), List.set_append_right _ _ (Nat.le_refl _),
    Nat.sub_self, List.set_cons_zero]

theorem writeSubsequent_append (pre post mid : List Octet) (first : Octet) (w : ℕ)
    (h : pre.length + mid.length < 2 ^ 32) :
    writeSubsequent pre.length mid.length w (pre ++ first :: (mid ++ post)) =
      .ok ((w / 64 ^ mid.length : ℕ),
        pre ++ first :: (subsequentOctets mid.length w ++ post)) := by
  induction mid using List.reverseRecOn generalizing post w with
  | nil => simp [writeSubsequent, subsequentOctets]
  | append_singleton mid old ih =>
      rw [List.length_append, List.length_singleton] at h ⊢
      have hbuf : pre ++ first :: (mid ++ [old] ++ post) =
          (pre ++ first :: mid) ++ old :: post := by
        simp
      have hindex : pre.length + (mid.length + 1) = (pre ++ first :: mid).length := by
        rw [List.length_append, List.length_cons]
      have hshift : (w / 64) / 64 ^ mid.length = w / 64 ^ (mid.length + 1) := by
        rw [Nat.div_div_eq_div_mul, ← Nat.pow_succ']
      have hback (octet : Octet) : (pre ++ first :: mid) ++ octet :: post =
          pre ++ first :: (mid ++ octet :: post) := by
        simp
      rw [writeSubsequent, hbuf, hindex, write_append (by rw [← hindex]; omega), Except.bind,
        hback, shiftRight_six, ih _ _ (by omega), hshift, subsequentOctets]
      simp

theorem writeChar_append (pre mid post : List Octet) {w : ℕ} (hw : formFor w < 6)
    (hmid : mid.length = formFor w) (old : Octet) (h : pre.length + 1 + formFor w < 2 ^ 32) :
    writeChar pre.length w (pre ++ old :: (mid ++ post)) =
      .ok ((pre ++ charOctets w).length, (pre ++ charOctets w) ++ post) := by
  have hsub := writeSubsequent_append pre post mid old w (by omega)
  have hneg : ¬ ((w : ℤ) < 0 ∨ formFor w = 6) := by
    omega
  rw [hmid] at hsub
  rw [writeChar, if_neg hneg, hsub, Except.bind]
  dsimp only
  rw [write_append (by omega), Except.map, Nat.mod_eq_of_lt h, List.length_append,
    length_charOctets, charOctets]
  simp [Nat.add_assoc, Nat.add_comm 1]

theorem toUtf8Loop_append (before ws : List ℕ) (h : ∀ w ∈ ws, formFor w < 6) {zeros : ℕ}
    (hzeros : 6 * ws.length ≤ zeros)
    (htotal : ((before ++ ws).flatMap charOctets).length < 2 ^ 32) {fuel : ℕ}
    (hfuel : ws.length < fuel) :
    ∃ zeros', toUtf8Loop ((before ++ ws).map Nat.cast) fuel before.length
        (before.flatMap charOctets).length (before.flatMap charOctets ++ List.replicate zeros 0) =
      some (.ok ((before ++ ws).flatMap charOctets ++ List.replicate zeros' 0)) := by
  induction ws generalizing before zeros fuel with
  | nil =>
      obtain ⟨fuel, rfl⟩ := Nat.exists_eq_succ_of_ne_zero (Nat.ne_zero_of_lt hfuel)
      refine ⟨zeros, ?_⟩
      rw [List.append_nil, toUtf8Loop, List.getElem?_eq_none (by simp)]
  | cons w ws ih =>
      obtain ⟨fuel, rfl⟩ := Nat.exists_eq_succ_of_ne_zero (Nat.ne_zero_of_lt hfuel)
      have hw := h w List.mem_cons_self
      have hsnoc : before ++ w :: ws = (before ++ [w]) ++ ws := by
        simp
      have hflat : (before ++ [w]).flatMap charOctets =
          before.flatMap charOctets ++ charOctets w := by
        simp
      have hget : ((before ++ w :: ws).map (Nat.cast : ℕ → ℤ))[before.length]? = some (w : ℤ) := by
        simp
      have hcount := length_le_flatMap (before ++ w :: ws)
      have htotal' := htotal
      rw [hsnoc, List.flatMap_append, hflat, List.length_append, List.length_append,
        length_charOctets] at htotal'
      rw [List.length_append, List.length_cons] at hcount
      rw [List.length_cons] at hzeros hfuel
      have hreplicate : List.replicate zeros (0 : Octet) =
          0 :: (List.replicate (formFor w) 0 ++ List.replicate (zeros - (formFor w + 1)) 0) := by
        rw [← List.replicate_add, ← List.replicate_succ]
        congr 1
        omega
      have hchar := writeChar_append (before.flatMap charOctets) (List.replicate (formFor w) 0)
        (List.replicate (zeros - (formFor w + 1)) 0) hw (by simp) 0 (by omega)
      rw [← hreplicate] at hchar
      obtain ⟨zeros', hrest⟩ := @ih (before ++ [w])
        (fun w' hw' => h w' (List.mem_cons_of_mem w hw')) (zeros - (formFor w + 1)) (by omega)
        (hsnoc ▸ htotal) fuel (by omega)
      refine ⟨zeros', ?_⟩
      rw [toUtf8Loop, hget]
      dsimp only
      rw [hchar]
      dsimp only
      rw [Nat.mod_eq_of_lt (by omega)]
      rw [hflat, ← hsnoc, List.length_append, List.length_singleton] at hrest
      exact hrest

/-! ### The standard encoding -/

def octetsOf (text : List Char) : List Octet := (text.map Char.toNat).flatMap charOctets

theorem lt_of_char (c : Char) : c.toNat < 0x110000 := by
  have hvalid := c.valid
  simp only [UInt32.isValidChar, Nat.isValidChar] at hvalid
  have : c.toNat = c.val.toNat := rfl
  omega

theorem toNat_lead (octet : Octet) : ∀ j < 6, (valueOf j ||| (~~~maskOf j &&& octet)).toNat =
    (valueOf j).toNat + octet.toNat % 2 ^ leadBits j := by
  revert octet
  decide

theorem toNat_subsequent (octet : Octet) :
    (0x80 ||| (octet &&& 0x3F) : Octet).toNat = 128 + octet.toNat % 64 := by
  revert octet
  decide

theorem toNat_firstOctet_add {j n : ℕ} (h : j < 6) (hn : n < 2 ^ leadBits j) :
    (firstOctet j n).toNat = (valueOf j).toNat + n := by
  have hle : leadBits j ≤ 8 := by
    rw [leadBits]
    split <;> omega
  have hdvd : 2 ^ leadBits j ∣ 256 := pow_dvd_pow 2 hle
  rw [firstOctet, toNat_lead _ j h, toNat_ofInt, Nat.mod_mod_of_dvd _ hdvd, Nat.mod_eq_of_lt hn]

theorem toNat_subsequentOctet (w : ℕ) : (subsequentOctet w).toNat = 128 + w % 64 := by
  rw [subsequentOctet, toNat_subsequent, toNat_ofInt]
  omega

theorem map_toNat_charOctets {w : ℕ} (h : formFor w < 6) : (charOctets w).map BitVec.toNat =
    ((valueOf (formFor w)).toNat + w / 64 ^ formFor w) ::
      (subsequentOctets (formFor w) w).map BitVec.toNat := by
  rw [charOctets, List.map_cons, toNat_firstOctet_add h (div_formFor h)]

theorem toNat_ofNat (n : ℕ) : (UInt8.ofNat n).toBitVec.toNat = n % 256 := rfl

theorem charOctets_char {c : Char} (h : c.toNat < 0x20000) :
    charOctets c.toNat = Utf8.encodeChar c := by
  refine List.map_injective_iff.mpr (fun _ _ => BitVec.eq_of_toNat_eq) ?_
  have hval : c.val.toNat = c.toNat := rfl
  have hvalue : (valueOf 0).toNat = 0 ∧ (valueOf 1).toNat = 0xC0 ∧ (valueOf 2).toNat = 0xE0 ∧
      (valueOf 3).toNat = 0xF0 := by
    decide
  obtain ⟨hvalue0, hvalue1, hvalue2, hvalue3⟩ := hvalue
  have hj : formFor c.toNat < 6 := by
    have := formFor_cases c.toNat
    omega
  rw [map_toNat_charOctets hj, Utf8.encodeChar, String.utf8EncodeChar, hval]
  rcases formFor_cases c.toNat with ⟨hj, hw⟩ | ⟨hj, hw⟩ | ⟨hj, hw⟩ | ⟨hj, hw⟩ | h'
  · rw [hj, if_pos (by omega)]
    simp only [subsequentOctets, List.map_cons, List.map_nil, toNat_ofNat, List.cons.injEq,
      and_true]
    omega
  · rw [hj, if_neg (by omega), if_pos (by omega)]
    simp only [subsequentOctets, List.map_cons, List.map_nil, List.nil_append,
      toNat_subsequentOctet, toNat_ofNat, List.cons.injEq,
      and_true]
    omega
  · rw [hj, if_neg (by omega), if_neg (by omega), if_pos (by omega)]
    simp only [subsequentOctets, List.map_cons, List.map_nil, List.nil_append, List.cons_append,
      toNat_subsequentOctet, toNat_ofNat, List.cons.injEq,
      and_true]
    omega
  · rw [hj, if_neg (by omega), if_neg (by omega), if_neg (by omega)]
    simp only [subsequentOctets, List.map_cons, List.map_nil, List.nil_append, List.cons_append,
      toNat_subsequentOctet, toNat_ofNat, List.cons.injEq,
      and_true]
    omega
  · omega

/-- A character that the table puts into the form with five octets has four. -/
theorem length_encodeChar_lt {c : Char} (h : 0x20000 ≤ c.toNat) :
    (Utf8.encodeChar c).length < (charOctets c.toNat).length := by
  have hval : c.val.toNat = c.toNat := rfl
  have hlen : (Utf8.encodeChar c).length = 4 := by
    rw [Utf8.encodeChar, String.utf8EncodeChar, hval, if_neg (by omega), if_neg (by omega),
      if_neg (by omega)]
    rfl
  have hchar := lt_of_char c
  have hform := formFor_cases c.toNat
  rw [hlen, length_charOctets]
  omega

/-- All octets are those of the standard if every character is. -/
theorem octetsOf_encode (text : List Char) : (Utf8.encode text).length ≤ (octetsOf text).length ∧
    (octetsOf text = Utf8.encode text ↔ ∀ c ∈ text, c.toNat < 0x20000) := by
  induction text with
  | nil => exact ⟨Nat.le_refl 0, iff_of_true rfl nofun⟩
  | cons c text ih =>
      have hcons : octetsOf (c :: text) = charOctets c.toNat ++ octetsOf text := rfl
      rw [hcons, Utf8.encode_cons, List.forall_mem_cons, ← ih.2, List.length_append,
        List.length_append]
      rcases Nat.lt_or_ge c.toNat 0x20000 with hlt | hge
      · rw [charOctets_char hlt, List.append_cancel_left_eq]
        exact ⟨Nat.add_le_add_left ih.1 _, by simp [hlt]⟩
      · have hlen := length_encodeChar_lt hge
        refine ⟨by omega, iff_of_false (fun heq => ?_) fun h => absurd h.1 (Nat.not_lt.mpr hge)⟩
        have := congrArg List.length heq
        rw [List.length_append, List.length_append] at this
        omega

/-! ### No zero inside -/

theorem firstOctet_ne_zero {w : ℕ} (h : formFor w < 6) (hw : w ≠ 0) :
    firstOctet (formFor w) (w / 64 ^ formFor w : ℕ) ≠ 0 := by
  intro hzero
  have hform := formOf_firstOctet h (w / 64 ^ formFor w : ℕ)
  have hvalue := toNat_firstOctet h (div_formFor h)
  rw [hzero] at hform hvalue
  have hnone : formFor w = 0 := by
    rw [← hform]
    decide
  have hmasked : (~~~maskOf 0 &&& 0).toNat = 0 := by
    decide
  rw [hnone, hmasked, pow_zero, Nat.div_one] at hvalue
  exact hw hvalue.symm

theorem subsequentOctet_ne_zero (temp_wchar : ℤ) : subsequentOctet temp_wchar ≠ 0 :=
  (subsequent_facts _).2.2

theorem zero_notMem_charOctets {w : ℕ} (h : formFor w < 6) (hw : w ≠ 0) : 0 ∉ charOctets w := by
  have hsub (y w : ℕ) : 0 ∉ subsequentOctets y w := by
    induction y generalizing w with
    | zero => nofun
    | succ y ih =>
        rw [subsequentOctets, List.mem_append, List.mem_singleton, not_or]
        exact ⟨ih _, (subsequentOctet_ne_zero w).symm⟩
  rw [charOctets, List.mem_cons, not_or]
  exact ⟨(firstOctet_ne_zero h hw).symm, hsub _ _⟩

theorem cString_append {octs : List Octet} (h : 0 ∉ octs) (zeros : ℕ) :
    cString (octs ++ List.replicate zeros 0) = octs := by
  have hall : ∀ octet ∈ octs, decide (octet ≠ 0) = true := by
    intro octet hmem
    rw [decide_eq_true_eq]
    rintro rfl
    exact h hmem
  rw [cString, List.takeWhile_append_of_pos hall]
  cases zeros <;> simp

theorem cString_cString (buf : List Octet) : cString (cString buf) = cString buf :=
  List.takeWhile_idem

/-- The place has an octet that is not zero, or is outside. -/
def NonzeroAt (buf : List Octet) (k : ℕ) : Prop := buf[k]? ≠ some 0

theorem length_le_cString {buf : List Octet} {n : ℕ} (hlen : n ≤ buf.length)
    (h : ∀ k < n, NonzeroAt buf k) : n ≤ (cString buf).length := by
  induction n generalizing buf with
  | zero => exact Nat.zero_le _
  | succ n ih =>
      rcases buf with _ | ⟨octet, buf⟩
      · exact absurd hlen (Nat.not_succ_le_zero n)
      · have hfirst : octet ≠ 0 := by
          simpa [NonzeroAt] using h 0 (Nat.succ_pos n)
        rw [cString, List.takeWhile_cons_of_pos (by simpa using hfirst), List.length_cons]
        exact Nat.succ_le_succ (ih (Nat.le_of_succ_le_succ hlen) fun k hk => by
          simpa [NonzeroAt] using h (k + 1) (Nat.succ_lt_succ hk))

theorem write_nonzero {buf buf' : List Octet} {index : ℕ} {octet : Octet}
    (h : write buf index octet = .ok buf') (hoctet : octet ≠ 0) :
    buf'.length = buf.length ∧
      ∀ k, NonzeroAt buf k ∨ k = index % 2 ^ 32 → NonzeroAt buf' k := by
  rw [write] at h
  split_ifs at h with hlt
  cases h
  refine ⟨List.length_set, fun k hk => ?_⟩
  rw [NonzeroAt, List.getElem?_set]
  split_ifs with heq
  · simpa using hoctet
  · exact hk.resolve_right (Ne.symm heq)

theorem writeSubsequent_nonzero {x y w : ℕ} {buf : List Octet} {r : ℤ × List Octet}
    (h : writeSubsequent x y w buf = .ok r) :
    r.1 = (w / 64 ^ y : ℕ) ∧ r.2.length = buf.length ∧
      ∀ k, NonzeroAt buf k ∨ (∃ i, 0 < i ∧ i ≤ y ∧ k = (x + i) % 2 ^ 32) → NonzeroAt r.2 k := by
  induction y generalizing w buf with
  | zero =>
      cases h
      refine ⟨by simp, rfl, fun k hk => hk.resolve_right ?_⟩
      rintro ⟨i, hpos, hle, -⟩
      exact absurd hle (Nat.not_le.mpr hpos)
  | succ y ih =>
      rw [writeSubsequent] at h
      cases hwrite : write buf (x + (y + 1)) (subsequentOctet w) with
      | error stop => simp [hwrite, Except.bind] at h
      | ok buf' =>
          rw [hwrite, Except.bind, shiftRight_six] at h
          obtain ⟨hlen', hnonzero'⟩ := write_nonzero hwrite (subsequentOctet_ne_zero w)
          obtain ⟨hshift, hlen, hnonzero⟩ := ih h
          refine ⟨?_, hlen.trans hlen', fun k hk => hnonzero k ?_⟩
          · rw [hshift, Nat.div_div_eq_div_mul, Nat.pow_succ']
          · rcases hk with hk | ⟨i, hpos, hle, hk⟩
            · exact Or.inl (hnonzero' k (Or.inl hk))
            · rcases Nat.eq_or_lt_of_le hle with rfl | hlt
              · exact Or.inl (hnonzero' k (Or.inr hk))
              · exact Or.inr ⟨i, hpos, Nat.le_of_lt_succ hlt, hk⟩

theorem writeChar_nonzero {x w : ℕ} (hw : w ≠ 0) {buf : List Octet} {r : ℕ × List Octet}
    (h : writeChar x w buf = .ok r) :
    r.1 = (x + (charOctets w).length) % 2 ^ 32 ∧ r.2.length = buf.length ∧
      ∀ k, NonzeroAt buf k ∨ (∃ i < (charOctets w).length, k = (x + i) % 2 ^ 32) →
        NonzeroAt r.2 k := by
  rw [writeChar] at h
  split_ifs at h with hform
  have hform' : formFor w < 6 := by
    have := formFor_cases w
    omega
  cases hsub : writeSubsequent x (formFor w) w buf with
  | error stop => simp [hsub, Except.bind] at h
  | ok r' =>
      obtain ⟨hshift, hlen', hnonzero'⟩ := writeSubsequent_nonzero hsub
      rw [hsub, Except.bind, hshift] at h
      cases hwrite : write r'.2 x (firstOctet (formFor w) (w / 64 ^ formFor w : ℕ)) with
      | error stop =>
          rw [hwrite] at h
          cases h
      | ok buf' =>
          obtain ⟨hlen, hnonzero⟩ := write_nonzero hwrite (firstOctet_ne_zero hform' hw)
          rw [hwrite] at h
          cases h
          rw [length_charOctets]
          refine ⟨by dsimp only; congr 1; omega, hlen.trans hlen', fun k hk => hnonzero k ?_⟩
          rcases hk with hk | ⟨i, hlt, hk⟩
          · exact Or.inl (hnonzero' k (Or.inl hk))
          · rcases Nat.eq_zero_or_pos i with rfl | hpos
            · exact Or.inr hk
            · exact Or.inl (hnonzero' k (Or.inr ⟨i, hpos, Nat.le_of_lt_succ hlt, hk⟩))

/-- Whatever wraps around, a place that has been written has no zero. -/
theorem toUtf8Loop_nonzero (before ws : List ℕ) (h : ∀ w ∈ ws, w ≠ 0)
    (hlen : (before ++ ws).length < 2 ^ 32) {fuel : ℕ} {buf buf' : List Octet}
    (hbuf : ∀ k < 2 ^ 32, k < (before.flatMap charOctets).length → NonzeroAt buf k)
    (hloop : toUtf8Loop ((before ++ ws).map Nat.cast) fuel before.length
      ((before.flatMap charOctets).length % 2 ^ 32) buf = some (.ok buf')) :
    buf'.length = buf.length ∧
      ∀ k < 2 ^ 32, k < ((before ++ ws).flatMap charOctets).length → NonzeroAt buf' k := by
  induction ws generalizing before fuel buf with
  | nil =>
      cases fuel with
      | zero => cases hloop
      | succ fuel =>
          rw [toUtf8Loop, List.append_nil, List.getElem?_eq_none (by simp)] at hloop
          cases hloop
          rw [List.append_nil]
          exact ⟨rfl, hbuf⟩
  | cons w ws ih =>
      cases fuel with
      | zero => cases hloop
      | succ fuel =>
          have hsnoc : before ++ w :: ws = (before ++ [w]) ++ ws := by
            simp
          have hflat : (before ++ [w]).flatMap charOctets =
              before.flatMap charOctets ++ charOctets w := by
            simp
          have hget : ((before ++ w :: ws).map (Nat.cast : ℕ → ℤ))[before.length]? =
              some (w : ℤ) := by
            simp
          rw [List.length_append, List.length_cons] at hlen
          rw [toUtf8Loop, hget] at hloop
          dsimp only at hloop
          cases hchar : writeChar ((before.flatMap charOctets).length % 2 ^ 32) w buf with
          | error stop =>
              rw [hchar] at hloop
              cases hloop
          | ok r =>
              obtain ⟨hx, hlen', hnonzero⟩ := writeChar_nonzero (h w List.mem_cons_self) hchar
              rw [hchar] at hloop
              dsimp only at hloop
              rw [hx, Nat.mod_add_mod, ← List.length_append, ← hflat,
                Nat.mod_eq_of_lt (a := before.length + 1) (by omega), hsnoc] at hloop
              have hrest := @ih (before ++ [w]) (fun w' hw' => h w' (List.mem_cons_of_mem w hw'))
                (by simp only [List.length_append, List.length_singleton]; omega) fuel r.2
                (fun k hk hk' => hnonzero k ?_) (by simpa using hloop)
              · rw [← hlen', hsnoc]
                exact hrest
              · rw [hflat, List.length_append] at hk'
                rcases Nat.lt_or_ge k (before.flatMap charOctets).length with hlt | hge
                · exact Or.inl (hbuf k hk hlt)
                · refine Or.inr ⟨k - (before.flatMap charOctets).length, by omega, ?_⟩
                  rw [Nat.mod_add_mod]
                  omega

/-- The index never gets to the end of 2^32 characters. -/
theorem toUtf8Loop_long {inStr : List ℤ} (h : 2 ^ 32 ≤ inStr.length) (fuel : ℕ) {i x : ℕ}
    (hi : i < 2 ^ 32) (buf buf' : List Octet) :
    toUtf8Loop inStr fuel i x buf ≠ some (.ok buf') := by
  induction fuel generalizing i x buf with
  | zero => nofun
  | succ fuel ih =>
      rw [toUtf8Loop, List.getElem?_eq_getElem (by omega)]
      dsimp only
      split
      · nofun
      · exact ih (Nat.mod_lt _ (by norm_num)) _

theorem toUtf8Loop_mono {inStr : List ℤ} {fuel fuel' : ℕ} (hle : fuel ≤ fuel') {i x : ℕ}
    {buf : List Octet} {r : Except Stop (List Octet)}
    (h : toUtf8Loop inStr fuel i x buf = some r) : toUtf8Loop inStr fuel' i x buf = some r := by
  induction fuel generalizing fuel' i x buf with
  | zero => cases h
  | succ fuel ih =>
      obtain ⟨fuel', rfl⟩ := Nat.exists_eq_succ_of_ne_zero (Nat.ne_zero_of_lt hle)
      rw [toUtf8Loop] at h ⊢
      split
      · next hget => rwa [hget] at h
      · next hget =>
        rw [hget] at h
        dsimp only at h
        split
        · next hchar => rwa [hchar] at h
        · next hchar =>
          rw [hchar] at h
          exact ih (Nat.le_of_succ_le_succ hle) h

theorem towcharLoop_mono {utf8Str : List Octet} {fuel fuel' : ℕ} (hle : fuel ≤ fuel') {i : ℕ}
    {r : Except ℤ (List ℤ)} (h : towcharLoop utf8Str fuel i = some r) :
    towcharLoop utf8Str fuel' i = some r := by
  induction fuel generalizing fuel' i r with
  | zero => cases h
  | succ fuel ih =>
      obtain ⟨fuel', rfl⟩ := Nat.exists_eq_succ_of_ne_zero (Nat.ne_zero_of_lt hle)
      rw [towcharLoop] at h ⊢
      dsimp only at h ⊢
      split_ifs at h ⊢
      · exact h
      · exact h
      · obtain ⟨r', hread, rfl⟩ := Option.map_eq_some_iff.mp h
        rw [ih (Nat.le_of_succ_le_succ hle) hread, Option.map_some]
      · exact h

/-! ### The main result -/

/-- A text as a wide string. -/
def wide (text : List Char) : List ℤ := (text.map Char.toNat).map Nat.cast

/-- `CvtWchar2UTF8` ends inside its buffer with these octets, which are valid, and
`CvtUTF8towchar` gives back the text. -/
def ConvertsTo (text : List Char) (octs : List Octet) : Prop :=
  ∃ fuel buf, cvtWchar2UTF8 fuel (wide text) = some (.ok buf) ∧ cString buf = octs ∧
    isValidUTF8String octs = true ∧ ∃ fuel, cvtUTF8towchar fuel octs = some (.ok (wide text))

def Rejects (utf8Str : List Octet) : Prop :=
  ∃ fuel, cvtUTF8towchar fuel utf8Str = some (.error (-3))

section Text

variable {text : List Char} (hzero : '\x00' ∉ text)

include hzero

theorem toNat_ne_zero : ∀ w ∈ text.map Char.toNat, w ≠ 0 := by
  intro w hw hnat
  obtain ⟨c, hc, rfl⟩ := List.mem_map.mp hw
  have heq : c = '\x00' := Char.ext (UInt32.toNat_inj.mp hnat)
  exact hzero (heq ▸ hc)

omit hzero in
theorem formFor_text : ∀ w ∈ text.map Char.toNat, formFor w < 6 := by
  intro w hw
  obtain ⟨c, hc, rfl⟩ := List.mem_map.mp hw
  have hchar := lt_of_char c
  have hform := formFor_cases c.toNat
  omega

omit hzero in
theorem toUtf8Loop_text (hlt : (octetsOf text).length < 2 ^ 32) :
    ∃ zeros, toUtf8Loop (wide text) (text.length + 1) 0 0
        (List.replicate (text.length * 6 + 1) 0) =
      some (.ok (octetsOf text ++ List.replicate zeros 0)) :=
  @toUtf8Loop_append [] (text.map Char.toNat) formFor_text (text.length * 6 + 1)
    (by rw [List.length_map]; omega) hlt (text.length + 1)
    (by rw [List.length_map]; exact Nat.lt_succ_self _)

theorem cvtWchar2UTF8_wide (fuel : ℕ) : cvtWchar2UTF8 fuel (wide text) =
    toUtf8Loop (wide text) fuel 0 0 (List.replicate (text.length * 6 + 1) 0) := by
  have hall : (wide text).takeWhile (· ≠ 0) = wide text := by
    rw [List.takeWhile_eq_self_iff, wide]
    intro temp_wchar hmem
    obtain ⟨w, hw, rfl⟩ := List.mem_map.mp hmem
    simpa using toNat_ne_zero hzero w hw
  rw [cvtWchar2UTF8, hall, wide, List.length_map, List.length_map]

theorem zero_notMem_octetsOf : 0 ∉ octetsOf text := by
  intro hmem
  obtain ⟨w, hw, hmem⟩ := List.mem_flatMap.mp hmem
  exact zero_notMem_charOctets (formFor_text w hw) (toNat_ne_zero hzero w hw) hmem

theorem cString_octetsOf : cString (octetsOf text) = octetsOf text := by
  simpa using cString_append (zero_notMem_octetsOf hzero) 0

/-- With octets whose number fits in the index everything comes back. -/
theorem convertsTo_octetsOf (hlt : (octetsOf text).length < 2 ^ 32) :
    ConvertsTo text (octetsOf text) := by
  obtain ⟨zeros, hloop⟩ := toUtf8Loop_text hlt
  refine ⟨text.length + 1, octetsOf text ++ List.replicate zeros 0,
    (cvtWchar2UTF8_wide hzero _).trans hloop, ?_, ?_, text.length + 1, ?_⟩
  · exact cString_append (zero_notMem_octetsOf hzero) zeros
  · exact isValidLoop_flatMap formFor_text (length_le_flatMap _)
  · rw [cvtUTF8towchar, cString_octetsOf hzero]
    exact @towcharLoop_flatMap [] _ formFor_text hlt (text.length + 1)
      (by rw [List.length_map]; exact Nat.lt_succ_self _)

/-- What comes back has been written without an index that wraps around. -/
theorem eq_octetsOf {octs : List Octet} (h : ConvertsTo text octs) :
    octs = octetsOf text ∧ (octetsOf text).length < 2 ^ 32 := by
  obtain ⟨fuel, buf, hwrite, hbuf, -, fuel', hread⟩ := h
  rw [cvtWchar2UTF8_wide hzero] at hwrite
  have hoctets : (cString octs).length < 2 ^ 32 := by
    by_contra hge
    exact towcharLoop_long (Nat.le_of_not_lt hge) fuel' (by norm_num) _ hread
  have hchars : (wide text).length < 2 ^ 32 := by
    by_contra hge
    exact toUtf8Loop_long (Nat.le_of_not_lt hge) fuel (by norm_num) _ _ hwrite
  have hlt : (octetsOf text).length < 2 ^ 32 := by
    by_contra hge
    have hbound : (octetsOf text).length ≤ text.length * 6 := by
      rw [octetsOf, List.length_flatMap]
      refine (List.sum_le_card_nsmul _ 6 ?_).trans (by simp)
      intro n hn
      obtain ⟨w, hw, rfl⟩ := List.mem_map.mp hn
      rw [length_charOctets]
      exact formFor_text w hw
    obtain ⟨hlen, hnonzero⟩ := toUtf8Loop_nonzero [] (text.map Char.toNat) (toNat_ne_zero hzero)
      (by simpa [wide] using hchars) (fun k _ hk => absurd hk (Nat.not_lt_zero k)) hwrite
    rw [List.length_replicate] at hlen
    have hcstring : 2 ^ 32 ≤ (cString buf).length := length_le_cString (by omega) fun k hk =>
      hnonzero k hk (Nat.lt_of_lt_of_le hk (Nat.le_of_not_lt hge))
    rw [← hbuf, cString_cString] at hoctets
    exact absurd hoctets (Nat.not_lt.mpr hcstring)
  obtain ⟨zeros, hloop⟩ := toUtf8Loop_text hlt
  have hsame := (toUtf8Loop_mono (le_max_left fuel _) hwrite).symm.trans
    (toUtf8Loop_mono (le_max_right fuel _) hloop)
  cases hsame
  exact ⟨hbuf ▸ cString_append (zero_notMem_octetsOf hzero) zeros, hlt⟩

/-- The octets are those of the standard if the table has the right form for every character. -/
theorem convertsTo_encode : ConvertsTo text (Utf8.encode text) ↔
    (∀ c ∈ text, c.toNat < 0x20000) ∧ (Utf8.encode text).length < 2 ^ 32 := by
  have hencode := (octetsOf_encode text).2
  constructor
  · intro h
    obtain ⟨heq, hlt⟩ := eq_octetsOf hzero h
    exact ⟨hencode.mp heq.symm, heq ▸ hlt⟩
  · rintro ⟨hall, hlt⟩
    rw [← hencode.mpr hall] at hlt ⊢
    exact convertsTo_octetsOf hzero hlt

end Text

/-- A C string is rejected if and only if it is not valid. -/
theorem rejects_iff {utf8Str : List Octet} (hlt : (cString utf8Str).length < 2 ^ 32) :
    Rejects utf8Str ↔ isValidUTF8String (cString utf8Str) = false := by
  have hends (fuel : ℕ) (hfuel : (cString utf8Str).length < fuel) :=
    @towcharLoop_isValid [] (cString utf8Str) hlt (cString utf8Str).length fuel (Nat.le_refl _)
      hfuel
  constructor
  · rintro ⟨fuel, hreject⟩
    rcases hends (max fuel ((cString utf8Str).length + 1)) (by omega) with
      ⟨-, out, hread⟩ | ⟨hvalid, -⟩
    · have hle := le_max_left fuel ((cString utf8Str).length + 1)
      cases hread.symm.trans (towcharLoop_mono hle hreject)
    · exact hvalid
  · intro hvalid
    refine ⟨(cString utf8Str).length + 1, ?_⟩
    rcases hends _ (Nat.lt_succ_self _) with ⟨hvalid', -⟩ | ⟨-, hread⟩
    · cases hvalid.symm.trans hvalid'
    · exact hread

theorem utf8String_exact {text : List Char} (hzero : '\x00' ∉ text) {utf8Str : List Octet}
    (hlt : (cString utf8Str).length < 2 ^ 32) :
    (ConvertsTo text (Utf8.encode text) ↔
      (∀ c ∈ text, c.toNat < 0x20000) ∧ (Utf8.encode text).length < 2 ^ 32) ∧
    ((octetsOf text).length < 2 ^ 32 → ConvertsTo text (octetsOf text)) ∧
    (Rejects utf8Str ↔ isValidUTF8String (cString utf8Str) = false) :=
  ⟨convertsTo_encode hzero, convertsTo_octetsOf hzero, rejects_iff hlt⟩

theorem utf8String_exact_euro :
    ConvertsTo ['€'] (Utf8.encode ['€']) ∧ Rejects [0xE2, 0x82] := by
  have hlen : (Utf8.encode ['€']).length = 3 := rfl
  have hcut : cString [0xE2, 0x82] = [0xE2, 0x82] := rfl
  have hsmall : ∀ c ∈ ['€'], c.toNat < 0x20000 := by
    simp
  have hinvalid : isValidUTF8String [0xE2, 0x82] = false := by
    decide
  obtain ⟨hwrite, -, hread⟩ := @utf8String_exact ['€'] (by decide) [0xE2, 0x82]
    (by rw [hcut]; norm_num)
  rw [hcut] at hread
  exact ⟨hwrite.mpr ⟨hsmall, by rw [hlen]; norm_num⟩, hread.mpr hinvalid⟩

/-- The first character that the table puts into five octets. -/
theorem not_convertsTo_encode :
    ¬ ∀ text : List Char, '\x00' ∉ text → ConvertsTo text (Utf8.encode text) := by
  intro h
  have hzero : '\x00' ∉ [Char.ofNat 0x20000] := by
    decide
  have hsmall := ((convertsTo_encode hzero).mp (h _ hzero)).1 _ (List.mem_singleton_self _)
  revert hsmall
  decide

end Esnacc.CLib.Utf8String
