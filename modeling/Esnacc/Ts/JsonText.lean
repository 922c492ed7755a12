import Mathlib.Data.BitVec
import Mathlib.Data.Nat.Digits.Defs
import Mathlib.Tactic.Common
import Esnacc.Ts.Base64Text

/-!
The texts that JSON comes in: what `JSON.parse` reads, what a TextDecoder makes of octets, and the
text of a Uint8Array. A text is a list of UTF-16 units.
-/

namespace Esnacc.Ts

/-- A text is a list of UTF-16 units. -/
abbrev JsText := List ℕ

/-- The units of a code point. -/
def unitsOf (codePoint : ℕ) : JsText :=
  if codePoint < 0x10000 then [codePoint]
  else [0xD800 + (codePoint - 0x10000) / 0x400, 0xDC00 + (codePoint - 0x10000) % 0x400]

def unitsOfString (s : String) : JsText := s.toList.flatMap fun c => unitsOf c.toNat

/-- `substring(indexStart, indexEnd)`, which swaps its arguments if they are in the wrong order. -/
def substring (text : JsText) (indexStart indexEnd : ℕ) : JsText :=
  (text.take (max indexStart indexEnd)).drop (min indexStart indexEnd)

/-- A value as `JSON.parse` makes it; a number is left as it is written. -/
inductive Json
  | null
  | boolean (b : Bool)
  | number (literal : JsText)
  | string (text : JsText)
  | array (elements : List Json)
  | object (members : List (JsText × Json))

namespace JsonText

def isSpace (unit : ℕ) : Bool := unit = 0x20 ∨ unit = 0x09 ∨ unit = 0x0A ∨ unit = 0x0D

def skipSpace (text : JsText) : JsText := text.dropWhile isSpace

def isDigit (unit : ℕ) : Bool := 0x30 ≤ unit ∧ unit ≤ 0x39

def hexValue (unit : ℕ) : Option ℕ :=
  if 0x30 ≤ unit ∧ unit ≤ 0x39 then some (unit - 0x30)
  else if 0x41 ≤ unit ∧ unit ≤ 0x46 then some (unit - 0x37)
  else if 0x61 ≤ unit ∧ unit ≤ 0x66 then some (unit - 0x57)
  else none

/-- What stands for itself behind a backslash, and what stands for something else. -/
def escaped (unit : ℕ) : Option ℕ :=
  if unit = 0x22 ∨ unit = 0x5C ∨ unit = 0x2F then some unit
  else if unit = 0x62 then some 0x08
  else if unit = 0x66 then some 0x0C
  else if unit = 0x6E then some 0x0A
  else if unit = 0x72 then some 0x0D
  else if unit = 0x74 then some 0x09
  else none

/-- A string behind its opening quote. -/
def parseString : JsText → Option (JsText × JsText)
  | 0x22 :: rest => some ([], rest)
  | 0x5C :: 0x75 :: h1 :: h2 :: h3 :: h4 :: rest => do
      let d1 ← hexValue h1
      let d2 ← hexValue h2
      let d3 ← hexValue h3
      let d4 ← hexValue h4
      let (s, rest) ← parseString rest
      return ((((d1 * 16 + d2) * 16 + d3) * 16 + d4) :: s, rest)
  | 0x5C :: unit :: rest => do
      let unit ← escaped unit
      let (s, rest) ← parseString rest
      return (unit :: s, rest)
  | unit :: rest =>
      if unit < 0x20 then none
      else do
        let (s, rest) ← parseString rest
        return (unit :: s, rest)
  | [] => none

/-- Digits, of which there is at least one. -/
def parseDigits (text : JsText) : Option (JsText × JsText) :=
  match text.takeWhile isDigit with
  | [] => none
  | digits => some (digits, text.dropWhile isDigit)

def parseFraction : JsText → Option (JsText × JsText)
  | 0x2E :: rest => (parseDigits rest).map fun r => (0x2E :: r.1, r.2)
  | text => some ([], text)

def parseExponent : JsText → Option (JsText × JsText)
  | e :: rest =>
      if e = 0x65 ∨ e = 0x45 then
        match rest with
        | sign :: rest' =>
            if sign = 0x2B ∨ sign = 0x2D then
              (parseDigits rest').map fun r => (e :: sign :: r.1, r.2)
            else (parseDigits rest).map fun r => (e :: r.1, r.2)
        | [] => none
      else some ([], e :: rest)
  | [] => some ([], [])

/-- A number without its sign; a zero is not followed by digits. -/
def parseUnsigned (text : JsText) : Option (JsText × JsText) := do
  let (digits, rest) ← parseDigits text
  if digits.head? = some 0x30 ∧ digits.length ≠ 1 then none
  else
    let (fraction, rest) ← parseFraction rest
    let (exponent, rest) ← parseExponent rest
    return (digits ++ fraction ++ exponent, rest)

def parseNumber : JsText → Option (JsText × JsText)
  | 0x2D :: rest => (parseUnsigned rest).map fun r => (0x2D :: r.1, r.2)
  | text => parseUnsigned text

/-- `true`, `false` and `null`. -/
def parseWord (text : JsText) : Option (Json × JsText) :=
  if (unitsOfString "true").isPrefixOf text then some (.boolean true, text.drop 4)
  else if (unitsOfString "false").isPrefixOf text then some (.boolean false, text.drop 5)
  else if (unitsOfString "null").isPrefixOf text then some (.null, text.drop 4)
  else none

mutual

/-- A value, and what stands behind it. -/
def parseValue (fuel : ℕ) (text : JsText) : Option (Json × JsText) :=
  match fuel with
  | 0 => none
  | fuel + 1 =>
      match skipSpace text with
      | [] => none
      | unit :: rest =>
          if unit = 0x2D ∨ isDigit unit then
            (parseNumber (unit :: rest)).map fun r => (.number r.1, r.2)
          else if unit = 0x22 then (parseString rest).map fun r => (.string r.1, r.2)
          else if unit = 0x5B then
            if (skipSpace rest).head? = some 0x5D then some (.array [], (skipSpace rest).tail)
            else (parseElements fuel rest).map fun r => (.array r.1, r.2)
          else if unit = 0x7B then
            if (skipSpace rest).head? = some 0x7D then some (.object [], (skipSpace rest).tail)
            else (parseMembers fuel rest).map fun r => (.object r.1, r.2)
          else parseWord (unit :: rest)

/-- The elements of an array, and its closing bracket. -/
def parseElements (fuel : ℕ) (text : JsText) : Option (List Json × JsText) :=
  match fuel with
  | 0 => none
  | fuel + 1 => do
      let (element, rest) ← parseValue fuel text
      match skipSpace rest with
      | 0x2C :: rest =>
          let (elements, rest) ← parseElements fuel rest
          return (element :: elements, rest)
      | 0x5D :: rest => return ([element], rest)
      | _ => none

/-- The members of an object, and its closing brace. -/
def parseMembers (fuel : ℕ) (text : JsText) : Option (List (JsText × Json) × JsText) :=
  match fuel with
  | 0 => none
  | fuel + 1 =>
      match skipSpace text with
      | 0x22 :: rest => do
          let (name, rest) ← parseString rest
          match skipSpace rest with
          | 0x3A :: rest =>
              let (value, rest) ← parseValue fuel rest
              match skipSpace rest with
              | 0x2C :: rest =>
                  let (members, rest) ← parseMembers fuel rest
                  return ((name, value) :: members, rest)
              | 0x7D :: rest => return ([(name, value)], rest)
              | _ => none
          | _ => none
      | _ => none

end

/-- `JSON.parse`; `none` is a SyntaxError. Every call consumes a unit or goes to what consumes
one, so that twice the length is enough. -/
def parse (text : JsText) : Option Json :=
  match parseValue (2 * text.length + 2) text with
  | some (value, rest) => if skipSpace rest = [] then some value else none
  | none => none

example : (parse (unitsOfString
    " \x7b \"a\" : [ 1 , -2.5e3 ] , \"b\" : \"\\u00e4\" \x7d ")).isSome := by
  decide +kernel

/-! ### The texts of octets -/

/-- What a UTF-8 decoder keeps of a sequence that is not complete. -/
structure DecoderState where
  needed : ℕ
  codePoint : ℕ
  lower : ℕ
  upper : ℕ
  deriving DecidableEq, Repr

def DecoderState.start : DecoderState := ⟨0, 0, 0x80, 0xBF⟩

/-- The first octet of a sequence: what is given out at once, and the state behind it. -/
def firstOctet (octet : ℕ) : JsText × DecoderState :=
  if octet ≤ 0x7F then ([octet], .start)
  else if 0xC2 ≤ octet ∧ octet ≤ 0xDF then ([], ⟨1, octet % 0x20, 0x80, 0xBF⟩)
  else if 0xE0 ≤ octet ∧ octet ≤ 0xEF then
    ([], ⟨2, octet % 0x10, if octet = 0xE0 then 0xA0 else 0x80,
      if octet = 0xED then 0x9F else 0xBF⟩)
  else if 0xF0 ≤ octet ∧ octet ≤ 0xF4 then
    ([], ⟨3, octet % 0x08, if octet = 0xF0 then 0x90 else 0x80,
      if octet = 0xF4 then 0x8F else 0xBF⟩)
  else ([0xFFFD], .start)

/-- What is not UTF-8 is replaced. -/
def decodeOctets : DecoderState → List Byte → JsText
  | s, [] => if s.needed = 0 then [] else [0xFFFD]
  | s, octet :: rest =>
      if s.needed = 0 then
        (firstOctet octet.toNat).1 ++ decodeOctets (firstOctet octet.toNat).2 rest
      else if s.lower ≤ octet.toNat ∧ octet.toNat ≤ s.upper then
        let codePoint := s.codePoint * 0x40 + octet.toNat % 0x40
        if s.needed = 1 then unitsOf codePoint ++ decodeOctets .start rest
        else decodeOctets ⟨s.needed - 1, codePoint, 0x80, 0xBF⟩ rest
      else
        0xFFFD :: (firstOctet octet.toNat).1 ++ decodeOctets (firstOctet octet.toNat).2 rest

/-- `new TextDecoder().decode(octets)`, which leaves out a mark of the byte order. -/
def textDecode (octets : List Byte) : JsText :=
  decodeOctets .start (if [0xEF, 0xBB, 0xBF].isPrefixOf octets then octets.drop 3 else octets)

/-- The decimal text of an octet. -/
def decimal (octet : Byte) : JsText := unitsOfString (toString octet.toNat)

/-- `toString()` of a Uint8Array: the numbers, with commas between them. -/
def toText : List Byte → JsText
  | [] => []
  | [octet] => decimal octet
  | octet :: rest => decimal octet ++ 0x2C :: toText rest

/-! ### Lists of numbers are not JSON -/

theorem decimal_digits : ∀ octet : Byte, decimal octet ≠ [] ∧ ∀ unit ∈ decimal octet,
    isDigit unit = true := by
  decide +kernel

theorem takeWhile_digits {digits rest : JsText} (h : ∀ unit ∈ digits, isDigit unit = true) :
    (digits ++ 0x2C :: rest).takeWhile isDigit = digits ∧
      (digits ++ 0x2C :: rest).dropWhile isDigit = 0x2C :: rest := by
  rw [List.takeWhile_append_of_pos h, List.dropWhile_append_of_pos h,
    List.takeWhile_cons_of_neg (by decide), List.dropWhile_cons_of_neg (by decide),
    List.append_nil]
  exact ⟨rfl, rfl⟩

/-- A number ends at a comma. -/
theorem parseUnsigned_comma {digits rest : JsText} (h : ∀ unit ∈ digits, isDigit unit = true)
    {r : JsText × JsText} (hr : parseUnsigned (digits ++ 0x2C :: rest) = some r) :
    r.2 = 0x2C :: rest := by
  obtain ⟨htake, hdrop⟩ := @takeWhile_digits digits rest h
  cases hdigits : digits with
  | nil =>
      rw [parseUnsigned, parseDigits, htake, hdigits] at hr
      cases hr
  | cons d ds =>
      rw [parseUnsigned, parseDigits, htake, hdrop, hdigits] at hr
      simp only [bind, Option.bind] at hr
      split_ifs at hr with hzero
      simp only [parseFraction, parseExponent, Nat.reduceEqDiff, or_self, if_false, pure,
        Option.some.injEq] at hr
      rw [← hr]

theorem isDigit_iff {unit : ℕ} : isDigit unit = true ↔ 0x30 ≤ unit ∧ unit ≤ 0x39 :=
  decide_eq_true_iff

theorem parse_comma {digits rest : JsText} (hne : digits ≠ [])
    (h : ∀ unit ∈ digits, isDigit unit = true) : parse (digits ++ 0x2C :: rest) = none := by
  cases digits with
  | nil => exact absurd rfl hne
  | cons d ds =>
      have hd := isDigit_iff.mp (h d List.mem_cons_self)
      have hspace : skipSpace (d :: ds ++ 0x2C :: rest) = d :: ds ++ 0x2C :: rest := by
        refine List.dropWhile_cons_of_neg ?_
        simp only [isSpace, decide_eq_true_eq]
        omega
      have hnumber : parseNumber (d :: (ds ++ 0x2C :: rest)) =
          parseUnsigned (d :: ds ++ 0x2C :: rest) := by
        rw [parseNumber]
        · rfl
        · intro rest' heq
          rw [(List.cons.inj heq).1] at hd
          omega
      rw [parse, parseValue, hspace, List.cons_append]
      dsimp only
      rw [if_pos (.inr (h d List.mem_cons_self)), hnumber]
      cases hparse : parseUnsigned (d :: ds ++ 0x2C :: rest) with
      | none => rfl
      | some r =>
          simp only [Option.map_some]
          rw [parseUnsigned_comma h hparse, if_neg]
          simp [skipSpace, isSpace]

/-- The text of octets of which there are two or more. -/
theorem parse_toText (a b : Byte) (octets : List Byte) :
    parse (toText (a :: b :: octets)) = none :=
  parse_comma (decimal_digits a).1 (decimal_digits a).2

theorem head_toText {octets : List Byte} {unit : ℕ} {rest : JsText}
    (h : toText octets = unit :: rest) : isDigit unit = true := by
  cases octets with
  | nil => cases h
  | cons a octets =>
      obtain ⟨hne, hall⟩ := decimal_digits a
      have hhead : ∃ tail, toText (a :: octets) = decimal a ++ tail := by
        cases octets with
        | nil => exact ⟨[], (List.append_nil _).symm⟩
        | cons b octets => exact ⟨_, rfl⟩
      obtain ⟨tail, htail⟩ := hhead
      rw [htail] at h
      cases hdecimal : decimal a with
      | nil => exact absurd hdecimal hne
      | cons d ds =>
          rw [hdecimal] at h hall
          rw [← (List.cons.inj h).1]
          exact hall d List.mem_cons_self

end JsonText

end Esnacc.Ts
