import Esnacc.Json.Reader

/-!
Strings as texts: what the reader makes of the text the writer writes for a string. Octets that
are no UTF-8 are replaced, and a string is read back as it was exactly if it has none.
-/

namespace Esnacc.SJson

open BitString

/-! ### Code points -/

/-- The code point that a pair of surrogates can stand for. -/
def wrapped (codepoint : ℕ) : ℕ :=
  if codepoint < 0x10000 then codepoint else 0x10000 + (codepoint - 0x10000) % 0x100000

def scalarAt (c : Octet) (rest : List Octet) : ℕ := wrapped (utf8ToCodepoint c rest).1

def scalarLoop : ℕ → List Octet → List ℕ
  | _, [] => []
  | 0, _ :: _ => []
  | fuel + 1, c :: rest => scalarAt c rest :: scalarLoop fuel (rest.drop (utf8ToCodepoint c rest).2)

/-- The text of a string, with a replacement for what is no character. -/
def sanitized (value : List Octet) : List Char :=
  (scalarLoop value.length value).map Char.ofNat

/-- An octet of ASCII stands for itself, and no other code point is so small. -/
theorem utf8ToCodepoint_ascii (c : Octet) (rest : List Octet) :
    (c.toNat < 0x80 → utf8ToCodepoint c rest = (c.toNat, 0)) ∧
      (0x80 ≤ c.toNat → 0x80 ≤ (utf8ToCodepoint c rest).1) := by
  refine ⟨fun h => by rw [utf8ToCodepoint.eq_def, if_pos h], fun h => ?_⟩
  rw [utf8ToCodepoint.eq_def]
  dsimp only
  rw [if_neg (by omega)]
  split_ifs <;> (try split) <;> dsimp only <;> (try split_ifs) <;> omega

/-- Only an octet of ASCII has so small a code point. -/
theorem utf8ToCodepoint_of_lt {c : Octet} {rest : List Octet}
    (h : (utf8ToCodepoint c rest).1 < 0x80) : utf8ToCodepoint c rest = (c.toNat, 0) := by
  obtain ⟨hsmall, hlarge⟩ := utf8ToCodepoint_ascii c rest
  refine hsmall ?_
  by_contra hc
  have := hlarge (by omega)
  omega

/-- A code point is a scalar value, or beyond all of them. -/
theorem utf8ToCodepoint_scalar (c : Octet) (rest : List Octet) :
    ¬(0xD800 ≤ (utf8ToCodepoint c rest).1 ∧ (utf8ToCodepoint c rest).1 ≤ 0xDFFF) := by
  have hlt := c.isLt
  rw [utf8ToCodepoint.eq_def]
  dsimp only
  split_ifs <;> (try split) <;> dsimp only <;> (try split_ifs) <;> omega

theorem isValidChar_scalarAt (c : Octet) (rest : List Octet) : (scalarAt c rest).isValidChar := by
  have hscalar := utf8ToCodepoint_scalar c rest
  rw [Nat.isValidChar, scalarAt, wrapped]
  split <;> omega

theorem toNat_ofNat_scalarAt (c : Octet) (rest : List Octet) :
    (Char.ofNat (scalarAt c rest)).toNat = scalarAt c rest := by
  rw [Char.toNat_ofNat, if_pos (isValidChar_scalarAt c rest)]

/-- A character is a scalar value. -/
theorem toNat_scalar (c : Char) : c.toNat < 0xD800 ∨ 0xDFFF < c.toNat ∧ c.toNat < 0x110000 :=
  c.valid

theorem codePointToUTF8_char (c : Char) : codePointToUTF8 c.toNat = Utf8.encodeChar c := by
  refine List.map_injective_iff.mpr (fun _ _ => BitVec.eq_of_toNat_eq) ?_
  have hval : c.val.toNat = c.toNat := rfl
  have hnat (n : ℕ) : (UInt8.ofNat n).toBitVec.toNat = n % 256 := rfl
  have hvalid := toNat_scalar c
  rw [Utf8.encodeChar, String.utf8EncodeChar, hval, codePointToUTF8]
  split_ifs <;> simp only [List.map_cons, List.map_nil, BitVec.toNat_ofNat, hnat,
    List.cons.injEq, and_true] <;> omega

theorem codePointToUTF8_scalarAt (c : Octet) (rest : List Octet) :
    codePointToUTF8 (scalarAt c rest) = Utf8.encodeChar (Char.ofNat (scalarAt c rest)) := by
  rw [← codePointToUTF8_char, toNat_ofNat_scalarAt]

/-! ### Escapes -/

theorem hexValue_hexDigit : ∀ d < 16, hexValue (hexDigit d) = some d := by decide

theorem decodeUnicodeEscapeSequence_toHex16Bit {x : ℕ} (h : x < 0x10000) (tail : List Octet) :
    decodeUnicodeEscapeSequence (toHex16Bit x ++ tail) = .ok (x, tail) := by
  simp only [toHex16Bit, List.cons_append, List.nil_append, decodeUnicodeEscapeSequence]
  rw [hexValue_hexDigit _ (by omega), hexValue_hexDigit _ (by omega),
    hexValue_hexDigit _ (by omega), hexValue_hexDigit _ (by omega)]
  simp only [Except.ok.injEq, Prod.mk.injEq, and_true]
  omega

theorem decodeUnicodeCodePoint_basic {x : ℕ} (h : x < 0x10000)
    (hscalar : ¬(0xD800 ≤ x ∧ x ≤ 0xDFFF)) (tail : List Octet) :
    decodeUnicodeCodePoint (toHex16Bit x ++ tail) = .ok (x, tail) := by
  rw [decodeUnicodeCodePoint, decodeUnicodeEscapeSequence_toHex16Bit h]
  dsimp only
  rw [if_neg (by omega)]

theorem decodeUnicodeCodePoint_pair {x : ℕ} (h : 0x10000 ≤ x) (tail : List Octet) :
    decodeUnicodeCodePoint (toHex16Bit (0xD800 + (x - 0x10000) / 0x400 % 0x400) ++
      (hexEscape (0xDC00 + (x - 0x10000) % 0x400) ++ tail)) = .ok (wrapped x, tail) := by
  have hlen : ¬(hexEscape (0xDC00 + (x - 0x10000) % 0x400) ++ tail).length < 6 := by
    rw [List.length_append, hexEscape, List.length_cons, List.length_cons, toHex16Bit]
    simp only [List.length_cons, List.length_nil]
    omega
  have hprefix : [0x5C, 0x75] <+: hexEscape (0xDC00 + (x - 0x10000) % 0x400) ++ tail :=
    ⟨toHex16Bit (0xDC00 + (x - 0x10000) % 0x400) ++ tail, rfl⟩
  have hdrop : (hexEscape (0xDC00 + (x - 0x10000) % 0x400) ++ tail).drop 2 =
      toHex16Bit (0xDC00 + (x - 0x10000) % 0x400) ++ tail := rfl
  rw [decodeUnicodeCodePoint, decodeUnicodeEscapeSequence_toHex16Bit (by omega)]
  dsimp only
  rw [if_pos (by omega), if_neg hlen, if_pos hprefix, hdrop,
    decodeUnicodeEscapeSequence_toHex16Bit (by omega)]
  simp only [Except.ok.injEq, Prod.mk.injEq, and_true]
  rw [wrapped, if_neg (by omega)]
  omega

/-- What has a letter is what the letter stands for; the rest is neither quote nor backslash. -/
theorem escapeLetter_spec (c : Octet) :
    (∀ letter ∈ escapeLetter c, unescapeLetter letter = some c ∧ c.toNat < 0x80) ∧
      (escapeLetter c = none → c ≠ 0x22 ∧ c ≠ 0x5C) := by
  rw [escapeLetter]
  split_ifs with hquote hslash
  case neg => exact ⟨nofun, fun _ => ⟨hquote, hslash⟩⟩
  all_goals
    subst_vars
    refine ⟨fun letter h => ?_, nofun⟩
    cases h
    decide

theorem ofNat_toNat (c : Octet) : BitVec.ofNat 8 c.toNat = c := by
  rw [BitVec.ofNat_toNat, BitVec.setWidth_eq]

theorem decodeLoop_plain {c : Octet} (hc : c ≠ 0x22 ∧ c ≠ 0x5C) (fuel : ℕ)
    (tail decoded : List Octet) :
    decodeLoop (fuel + 1) (c :: tail) decoded = decodeLoop fuel tail (decoded ++ [c]) := by
  simp only [decodeLoop, hc.1, hc.2, if_false]

theorem decodeLoop_hexEscape {x unicode : ℕ} {tail current : List Octet}
    (h : decodeUnicodeCodePoint (toHex16Bit x ++ tail) = .ok (unicode, current)) (fuel : ℕ)
    (decoded : List Octet) : decodeLoop (fuel + 1) (hexEscape x ++ tail) decoded =
      decodeLoop fuel current (decoded ++ codePointToUTF8 unicode) := by
  have hletter : unescapeLetter 0x75 = none := by decide
  simp only [hexEscape, List.cons_append, decodeLoop, hletter, h]
  rfl

/-- One pass of the decoder over a code point. -/
theorem decodeLoop_codepointText {c : Octet} {rest : List Octet} (hc : c ≠ 0x22 ∧ c ≠ 0x5C)
    (fuel : ℕ) (tail decoded : List Octet) :
    decodeLoop (fuel + 1) (codepointText (utf8ToCodepoint c rest).1 ++ tail) decoded =
      decodeLoop fuel tail (decoded ++ codePointToUTF8 (scalarAt c rest)) := by
  have hascii (h : (utf8ToCodepoint c rest).1 < 0x80) : (utf8ToCodepoint c rest).1 = c.toNat := by
    rw [utf8ToCodepoint_of_lt h]
  have hscalar := utf8ToCodepoint_scalar c rest
  rw [scalarAt]
  generalize (utf8ToCodepoint c rest).1 = x at *
  rw [codepointText]
  split_ifs with h20 h80 h10000
  · rw [decodeLoop_hexEscape (decodeUnicodeCodePoint_basic (by omega) hscalar tail), wrapped,
      if_pos (by omega)]
  · -- Written as it is, which only ASCII is.
    obtain rfl := hascii h80
    rw [ofNat_toNat, List.singleton_append, decodeLoop_plain hc, wrapped, if_pos (by omega),
      codePointToUTF8, if_pos (by omega), ofNat_toNat]
  · rw [decodeLoop_hexEscape (decodeUnicodeCodePoint_basic h10000 hscalar tail), wrapped,
      if_pos h10000]
  · rw [List.append_assoc, decodeLoop_hexEscape (decodeUnicodeCodePoint_pair (by omega) tail)]

theorem decodeLoop_escape (c : Octet) (rest : List Octet) (fuel : ℕ) (tail decoded : List Octet) :
    decodeLoop (fuel + 1) ((escape c rest).1 ++ tail) decoded =
      decodeLoop fuel tail (decoded ++ codePointToUTF8 (scalarAt c rest)) := by
  rw [escape]
  cases hletter : escapeLetter c with
  | none => exact decodeLoop_codepointText ((escapeLetter_spec c).2 hletter) fuel tail decoded
  | some letter =>
      have hspec := (escapeLetter_spec c).1 letter hletter
      have hscalar : codePointToUTF8 (scalarAt c rest) = [c] := by
        rw [scalarAt, (utf8ToCodepoint_ascii c rest).1 hspec.2, wrapped, if_pos (by dsimp only; omega),
          codePointToUTF8, if_pos (by dsimp only; omega), ofNat_toNat]
      rw [hscalar]
      simp only [List.cons_append, List.nil_append, decodeLoop, if_true, hspec.1]
      rfl

theorem escape_snd (c : Octet) (rest : List Octet) :
    (escape c rest).2 = (utf8ToCodepoint c rest).2 := by
  rw [escape]
  cases hletter : escapeLetter c with
  | none => rfl
  | some letter =>
      rw [(utf8ToCodepoint_ascii c rest).1 ((escapeLetter_spec c).1 letter hletter).2]

theorem escape_ne_nil (c : Octet) (rest : List Octet) : (escape c rest).1 ≠ [] := by
  rw [escape]
  cases escapeLetter c with
  | some letter => exact List.cons_ne_nil _ _
  | none =>
      dsimp only
      rw [codepointText]
      split_ifs <;> exact List.cons_ne_nil _ _

/-- The decoder on all that is written between the quotes. -/
theorem decodeLoop_escapeLoop {n fuel : ℕ} {value decoded : List Octet} (hn : value.length ≤ n)
    (hfuel : (escapeLoop n value).length ≤ fuel) :
    decodeLoop fuel (escapeLoop n value) decoded =
      .ok (decoded ++ (scalarLoop n value).flatMap codePointToUTF8) := by
  induction n generalizing fuel value decoded with
  | zero =>
      rw [List.length_eq_zero_iff.mp (Nat.le_zero.mp hn)]
      cases fuel <;> simp [escapeLoop, decodeLoop, scalarLoop]
  | succ n ih =>
      cases value with
      | nil => cases fuel <;> simp [escapeLoop, decodeLoop, scalarLoop]
      | cons c rest =>
          have hpos := List.length_pos_iff.mpr (escape_ne_nil c rest)
          rw [escapeLoop, List.length_append] at hfuel
          obtain ⟨fuel, rfl⟩ := Nat.exists_eq_add_one.mpr (by omega : 0 < fuel)
          have hrest : (rest.drop (escape c rest).2).length ≤ n := by
            rw [List.length_drop]
            rw [List.length_cons] at hn
            omega
          rw [escapeLoop, decodeLoop_escape, ih hrest (by omega), scalarLoop, List.flatMap_cons,
            escape_snd, List.append_assoc]

theorem flatMap_scalarLoop (n : ℕ) (value : List Octet) :
    (scalarLoop n value).flatMap codePointToUTF8 =
      Utf8.encode ((scalarLoop n value).map Char.ofNat) := by
  induction n generalizing value with
  | zero => cases value <;> rfl
  | succ n ih =>
      cases value with
      | nil => rfl
      | cons c rest =>
          rw [scalarLoop, List.flatMap_cons, List.map_cons, Utf8.encode_cons, ih,
            codePointToUTF8_scalarAt]

/-! ### The token -/

/-- Reads the piece up to its end, whatever comes behind. -/
def Passes (piece : List Octet) : Prop := ∀ tail ≠ [], readString (piece ++ tail) =
  ((readString tail).1, piece ++ (readString tail).2.1, (readString tail).2.2)

theorem Passes.append {p q : List Octet} (hp : Passes p) (hq : Passes q) : Passes (p ++ q) := by
  intro tail htail
  have hne : q ++ tail ≠ [] := List.append_ne_nil_of_right_ne_nil q htail
  rw [List.append_assoc, hp _ hne, hq _ htail, List.append_assoc]

theorem passes_nil : Passes [] := fun _ _ => rfl

theorem passes_singleton {c : Octet} (hc : c ≠ 0x22 ∧ c ≠ 0x5C) : Passes [c] := by
  intro tail htail
  cases tail with
  | nil => exact absurd rfl htail
  | cons e rest => rw [List.singleton_append, readString, if_neg hc.2, if_neg hc.1]; rfl

theorem passes_escaped (e : Octet) : Passes [0x5C, e] := fun tail _ => by
  rw [List.cons_append, List.cons_append, List.nil_append, readString, if_pos rfl]
  rfl

theorem hexDigit_ne : ∀ d < 16, hexDigit d ≠ 0x22 ∧ hexDigit d ≠ 0x5C := by decide

theorem passes_hexEscape (x : ℕ) : Passes (hexEscape x) := by
  have hdigit (d : ℕ) : Passes [hexDigit (d % 16)] :=
    passes_singleton (hexDigit_ne _ (Nat.mod_lt _ (by decide)))
  exact (passes_escaped 0x75).append
    ((hdigit _).append ((hdigit _).append ((hdigit _).append (hdigit _))))

theorem passes_escape (c : Octet) (rest : List Octet) : Passes (escape c rest).1 := by
  rw [escape]
  cases hletter : escapeLetter c with
  | some letter => exact passes_escaped letter
  | none =>
      dsimp only
      rw [codepointText]
      split_ifs with h20 h80 h10000
      · exact passes_hexEscape _
      · rw [utf8ToCodepoint_of_lt h80, ofNat_toNat]
        exact passes_singleton ((escapeLetter_spec c).2 hletter)
      · exact passes_hexEscape _
      · exact (passes_hexEscape _).append (passes_hexEscape _)

theorem passes_escapeLoop (n : ℕ) (value : List Octet) : Passes (escapeLoop n value) := by
  induction n generalizing value with
  | zero => cases value <;> exact passes_nil
  | succ n ih =>
      cases value with
      | nil => exact passes_nil
      | cons c rest => exact (passes_escape c rest).append (ih _)

theorem readString_quote (rest : List Octet) : readString (0x22 :: rest) = (true, [0x22], rest) := by
  cases rest <;> rfl

/-! ### Whole strings -/

theorem requiresEscaping_spec {c : Octet} (h : requiresEscaping c = false) :
    escapeLetter c = none ∧ 0x20 ≤ c.toNat ∧ c.toNat < 0x80 := by
  rw [requiresEscaping, decide_eq_false_iff_not, not_or, not_or, not_or] at h
  obtain ⟨hslash, hquote, hge, hle⟩ := h
  have hne (d : Octet) (hd : d.toNat < 0x20) : c ≠ d := by
    rintro rfl
    exact hge hd
  refine ⟨?_, by omega, by omega⟩
  rw [escapeLetter, if_neg hquote, if_neg hslash, if_neg (hne _ (by decide)),
    if_neg (hne _ (by decide)), if_neg (hne _ (by decide)), if_neg (hne _ (by decide)),
    if_neg (hne _ (by decide))]

/-- What needs no escape is what the escapes would be. -/
theorem escapeLoop_plain {n : ℕ} {value : List Octet} (hn : value.length ≤ n)
    (h : doesAnyCharRequireEscaping value = false) : escapeLoop n value = value := by
  induction n generalizing value with
  | zero =>
      rw [List.length_eq_zero_iff.mp (Nat.le_zero.mp hn)]
      rfl
  | succ n ih =>
      cases value with
      | nil => rfl
      | cons c rest =>
          rw [doesAnyCharRequireEscaping, List.any_cons, Bool.or_eq_false_iff] at h
          obtain ⟨hletter, hge, hlt⟩ := requiresEscaping_spec h.1
          have hescape : escape c rest = ([c], 0) := by
            rw [escape, hletter]
            dsimp only
            rw [(utf8ToCodepoint_ascii c rest).1 hlt, codepointText, if_neg (by omega),
              if_pos hlt, ofNat_toNat]
          rw [escapeLoop, hescape, List.drop_zero, ih (Nat.le_of_succ_le_succ hn) h.2]
          rfl

theorem valueToQuotedString_eq (value : List Octet) :
    valueToQuotedString value = 0x22 :: (escapeLoop value.length value ++ [0x22]) := by
  rw [valueToQuotedString]
  split
  · rfl
  · next h =>
      rw [Bool.not_eq_true] at h
      rw [escapeLoop_plain le_rfl h, Value.cString_eq fun ch hch => ?_]
      rintro rfl
      exact absurd (List.any_eq_true.mpr ⟨0, hch, rfl⟩) (by rw [← doesAnyCharRequireEscaping, h]; decide)

/-- The whole text is one token, whatever follows. -/
theorem readString_valueToQuotedString (value rest : List Octet) :
    readString ((valueToQuotedString value).tail ++ rest) =
      (true, (valueToQuotedString value).tail, rest) := by
  have hpass := passes_escapeLoop value.length value (0x22 :: rest) (List.cons_ne_nil _ _)
  rw [readString_quote] at hpass
  rw [valueToQuotedString_eq, List.tail_cons, List.append_assoc, List.singleton_append, hpass]

/-- What is read of the text of a string. -/
theorem decodeString_valueToQuotedString (value : List Octet) :
    decodeString (valueToQuotedString value) = .ok (Utf8.encode (sanitized value)) := by
  rw [decodeString, valueToQuotedString_eq, List.tail_cons, List.dropLast_concat,
    decodeLoop_escapeLoop le_rfl le_rfl, flatMap_scalarLoop]
  rfl

/-! ### Texts -/

/-- The octets of a character are taken for its code point. -/
theorem utf8ToCodepoint_encodeChar (ch : Char) (tail : List Octet) :
    ∃ first more, Utf8.encodeChar ch = first :: more ∧
      utf8ToCodepoint first (more ++ tail) = (ch.toNat, more.length) := by
  have hvalid := toNat_scalar ch
  rw [← codePointToUTF8_char, codePointToUTF8]
  split_ifs with h1 h2 h3 h4
  · refine ⟨_, [], rfl, ?_⟩
    have hnat : (BitVec.ofNat 8 ch.toNat).toNat = ch.toNat := by
      rw [BitVec.toNat_ofNat]
      omega
    rw [(utf8ToCodepoint_ascii _ _).1 (by omega), hnat]
    rfl
  · refine ⟨_, [_], rfl, ?_⟩
    simp only [utf8ToCodepoint, List.singleton_append, BitVec.toNat_ofNat]
    rw [if_neg (by omega), if_pos (by omega), if_neg (by omega)]
    exact Prod.ext (by dsimp only; omega) rfl
  · refine ⟨_, [_, _], rfl, ?_⟩
    simp only [utf8ToCodepoint, List.cons_append, List.nil_append, BitVec.toNat_ofNat]
    rw [if_neg (by omega), if_neg (by omega), if_pos (by omega), if_neg (by omega)]
    exact Prod.ext (by dsimp only; omega) rfl
  · refine ⟨_, [_, _, _], rfl, ?_⟩
    simp only [utf8ToCodepoint, List.cons_append, List.nil_append, BitVec.toNat_ofNat]
    rw [if_neg (by omega), if_neg (by omega), if_neg (by omega), if_pos (by omega),
      if_neg (by omega)]
    exact Prod.ext (by dsimp only; omega) rfl
  · omega

theorem scalarLoop_encode {n : ℕ} {text : List Char} (hn : (Utf8.encode text).length ≤ n) :
    (scalarLoop n (Utf8.encode text)).map Char.ofNat = text := by
  induction text generalizing n with
  | nil => cases n <;> rfl
  | cons ch text ih =>
      obtain ⟨first, more, hchar, hpoint⟩ := utf8ToCodepoint_encodeChar ch (Utf8.encode text)
      have hscalar : scalarAt first (more ++ Utf8.encode text) = ch.toNat := by
        have hscalar := utf8ToCodepoint_scalar first (more ++ Utf8.encode text)
        have hvalid := toNat_scalar ch
        rw [scalarAt, hpoint, wrapped]
        split
        · rfl
        · dsimp only
          omega
      rw [Utf8.encode_cons, hchar, List.cons_append, List.length_cons] at hn
      obtain ⟨n, rfl⟩ := Nat.exists_eq_add_one.mpr (by omega : 0 < n)
      rw [List.length_append] at hn
      rw [Utf8.encode_cons, hchar, List.cons_append, scalarLoop, List.map_cons, hscalar,
        Char.ofNat_toNat, hpoint, List.drop_left, ih (by omega)]

theorem sanitized_encode (text : List Char) : sanitized (Utf8.encode text) = text :=
  scalarLoop_encode le_rfl

/-- A text is read back as it is. -/
theorem decodeString_encode (text : List Char) :
    decodeString (valueToQuotedString (Utf8.encode text)) = .ok (Utf8.encode text) := by
  rw [decodeString_valueToQuotedString, sanitized_encode]

theorem skipSpaces_cons {c : Octet} (h : isSpace c = false) (rest : List Octet) :
    skipSpaces (c :: rest) = c :: rest :=
  List.dropWhile_cons_of_neg (by rw [h]; decide)

theorem readToken_valueToQuotedString (value rest : List Octet) :
    readToken (valueToQuotedString value ++ rest) =
      ⟨true, ⟨.string, valueToQuotedString value⟩, rest⟩ := by
  obtain ⟨body, hbody⟩ : ∃ body, valueToQuotedString value = 0x22 :: body :=
    ⟨_, valueToQuotedString_eq value⟩
  have hread := readString_valueToQuotedString value rest
  rw [hbody, List.tail_cons] at hread
  rw [hbody, List.cons_append, readToken, skipSpaces_cons (by decide)]
  dsimp only
  rw [if_neg (by decide), if_neg (by decide), if_neg (by decide), if_neg (by decide), if_pos rfl,
    hread]
  rfl

/-- The text of any octets is one token, whatever follows it. What is read of it is a text, and
these octets exactly if they were one. -/
theorem quotedString_readsBack (value rest : List Octet) :
    readToken (valueToQuotedString value ++ rest) =
        ⟨true, ⟨.string, valueToQuotedString value⟩, rest⟩ ∧
      ∃ text, decodeString (valueToQuotedString value) = .ok (Utf8.encode text) ∧
        (Utf8.encode text = value ↔ (Utf8.decode value).isSome) := by
  refine ⟨readToken_valueToQuotedString value rest, sanitized value,
    decodeString_valueToQuotedString value, fun h => ?_, fun h => ?_⟩
  · rw [Option.isSome_iff_exists]
    exact ⟨_, Utf8.decode_eq_some.mpr h⟩
  · obtain ⟨text, htext⟩ := Option.isSome_iff_exists.mp h
    rw [← Utf8.decode_eq_some.mp htext, sanitized_encode]

example : valueToQuotedString (Value.name "a\"b\n") = Value.name "\"a\\\"b\\n\"" := by decide

end Esnacc.SJson
