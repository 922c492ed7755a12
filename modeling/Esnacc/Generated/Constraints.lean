import Esnacc.Lib.ExchangeSort
import Esnacc.Per.Size

/-!
Subtype constraints in generated code: lists of value ranges, of sizes and of characters, which the
classes of the library read. Each is gathered from all alternatives of the constraint, whether they
are joined by a union or by an intersection.
-/

namespace Esnacc.Generated.Constraints

open BitString

/-! ### Constraints -/

/-- A value: an integer, a reference with the integer it is linked to, MIN or MAX, or a text, which
is a string of C without the zero at its end. -/
inductive EndValue
  | integer (n : ℤ)
  | reference (n : ℤ)
  | special
  | text (octs : List Octet)
  deriving DecidableEq, Repr

structure EndPoint where
  endValue : EndValue
  valueInclusive : Bool
  deriving DecidableEq, Repr

mutual

inductive Subtype
  | single (value : SubtypeValue)
  | and (elmts : List Subtype)
  | or (elmts : List Subtype)

inductive SubtypeValue
  | valueRange (lower upper : EndPoint)
  | singleValue (value : EndValue)
  | sizeConstraint (subtype : Subtype)
  | permittedAlphabet (subtype : Subtype)

end

/-! ### What they permit -/

mutual

def Holds (leaf : SubtypeValue → Prop) : Subtype → Prop
  | .single value => leaf value
  | .and elmts => HoldsAll leaf elmts
  | .or elmts => HoldsAny leaf elmts

def HoldsAll (leaf : SubtypeValue → Prop) : List Subtype → Prop
  | [] => True
  | s :: ss => Holds leaf s ∧ HoldsAll leaf ss

def HoldsAny (leaf : SubtypeValue → Prop) : List Subtype → Prop
  | [] => False
  | s :: ss => Holds leaf s ∨ HoldsAny leaf ss

end

/-- The value is at the lower end or above it. -/
def EndPoint.AtLeast (e : EndPoint) (v : ℤ) : Prop :=
  match e.endValue with
  | .integer n | .reference n => if e.valueInclusive then n ≤ v else n < v
  | .special => True
  | .text octs =>
      if e.valueInclusive then (octs.headD 0).toNat ≤ v else ((octs.headD 0).toNat : ℤ) < v

def EndPoint.AtMost (e : EndPoint) (v : ℤ) : Prop :=
  match e.endValue with
  | .integer n | .reference n => if e.valueInclusive then v ≤ n else v < n
  | .special => True
  | .text octs =>
      if e.valueInclusive then v ≤ (octs.headD 0).toNat else v < ((octs.headD 0).toNat : ℤ)

/-- The integers that a value range or a single value permits. -/
def PermitsValue (v : ℤ) : SubtypeValue → Prop
  | .valueRange lower upper => lower.AtLeast v ∧ upper.AtMost v
  | .singleValue (.integer n) | .singleValue (.reference n) => v = n
  | .singleValue _ => False
  | .sizeConstraint _ | .permittedAlphabet _ => True

/-- The sizes that SIZE permits. -/
def PermitsSize (size : ℕ) : SubtypeValue → Prop
  | .sizeConstraint subtype => Holds (PermitsValue size) subtype
  | .valueRange _ _ | .singleValue _ | .permittedAlphabet _ => True

/-- The characters that are permitted inside FROM. -/
def PermitsLetter (o : Octet) : SubtypeValue → Prop
  | .valueRange lower upper => lower.AtLeast o.toNat ∧ upper.AtMost o.toNat
  | .singleValue (.text octs) => o ∈ octs
  | .singleValue _ => False
  | .sizeConstraint _ | .permittedAlphabet _ => True

/-- The characters that FROM permits. -/
def PermitsCharacter (o : Octet) : SubtypeValue → Prop
  | .permittedAlphabet subtype => Holds (PermitsLetter o) subtype
  | .valueRange _ _ | .singleValue _ | .sizeConstraint _ => True

/-! ### Gathering the lists -/

/-- The elements of a list that are no lists themselves; the others are passed over. -/
def singles (elmts : List Subtype) : List SubtypeValue :=
  elmts.filterMap fun s =>
    match s with
    | .single value => some value
    | .and _ | .or _ => none

/-- The elements of an alternative of an intersection. -/
def alternative : Subtype → List SubtypeValue
  | .single value => [value]
  | .or elmts => singles elmts
  | .and _ => []

/-- The elements in the order in which they are come to. -/
def gathered : Subtype → List SubtypeValue
  | .and elmts => elmts.flatMap alternative
  | .or elmts => singles elmts
  | .single value => [value]

/-- `AsnInt` of the compiler is an `int`. -/
def addOne (n : ℤ) : Except Fault ℤ :=
  if n + 1 < 2 ^ 31 then .ok (n + 1) else .error (.undefinedBehaviour "overflow of int")

/-- The integer of an end that is not inclusive is one more, at the upper end too. -/
def EndPoint.bound (e : EndPoint) (n : ℤ) : Except Fault ℤ :=
  if e.valueInclusive then .ok n else addOne n

/-- One step of `ValueRange_LISTS`. The array has fifteen entries. -/
def valueRangeStep (vrList : List ValueRange) : SubtypeValue → Except Fault (List ValueRange)
  | .valueRange lower upper =>
      match lower.endValue with
      | .integer n =>
          if vrList.length < 15 then do
            let lowerBound ← lower.bound n
            match upper.endValue with
            | .integer m => do
                let upperBound ← upper.bound m
                return vrList ++ [⟨lowerBound, upperBound, .bounded⟩]
            | _ => return vrList ++ [⟨lowerBound, 0, .missing⟩]
          else return vrList
      | _ => return vrList
  | .singleValue (.integer n) =>
      if vrList.length < 15 then return vrList ++ [⟨n, 0, .single⟩] else return vrList
  | .singleValue _ | .sizeConstraint _ | .permittedAlphabet _ => return vrList

/-- The value ranges that are emitted for an INTEGER. -/
def valueRanges (s : Subtype) : Except Fault (List ValueRange) :=
  (gathered s).foldlM valueRangeStep []

/-- The upper bound of a size, if it is one that is not dropped. -/
def sizeUpperBound (upper : EndPoint) : Except Fault (Option ℤ) :=
  match upper.endValue with
  | .integer m => if m ≤ 65536 then some <$> upper.bound m else return none
  | .reference m => some <$> upper.bound m
  | .special | .text _ => return none

/-- The lower bound of a size with an upper bound. The end that a reference gives counts as
inclusive. -/
def sizeLowerBound (lower : EndPoint) : Except Fault ℤ :=
  match lower.endValue with
  | .integer n => lower.bound n
  | .reference n => return n
  | .special | .text _ => .error (.undefinedBehaviour "a bound that is not set")

def pastTheEnd : Fault := .undefinedBehaviour "write past the end of the list"

/-- One step of `SizeConstraint_LISTS`. What is counted without an entry being written is printed
all the same. -/
def sizeEntry (scList : List SizeConstraint) :
    SubtypeValue → Except Fault (List SizeConstraint)
  | .valueRange lower upper => do
      if 15 ≤ scList.length then throw pastTheEnd
      match ← sizeUpperBound upper with
      | some upperBound => do
          let lowerBound ← sizeLowerBound lower
          return scList ++ [⟨toUlong lowerBound, toUlong upperBound, .bounded⟩]
      | none => return scList ++ [⟨0, 0, .missing⟩]
  | .singleValue (.integer n) | .singleValue (.reference n) =>
      if 15 ≤ scList.length then .error pastTheEnd
      else return scList ++ [⟨toUlong n, 0, .single⟩]
  | .singleValue _ => .error (.undefinedBehaviour "an entry that is not set")
  | .sizeConstraint _ | .permittedAlphabet _ => return scList

/-- One step of `BasicTypeString_LISTS`. A SIZE whose constraint is a list is passed over. -/
def sizeStep (scList : List SizeConstraint) : SubtypeValue → Except Fault (List SizeConstraint)
  | .sizeConstraint (.single value) => sizeEntry scList value
  | .sizeConstraint _ | .valueRange _ _ | .singleValue _ | .permittedAlphabet _ => return scList

/-- The sizes that are emitted: none at all if one of them has no upper bound. -/
def sizeConstraints (s : Subtype) : Except Fault (List SizeConstraint) := do
  let scList ← (gathered s).foldlM sizeStep []
  return if scList.any fun c => c.upperBoundExists = .missing then [] else scList

/-- A character is put into the alphabet if it is new; the array has 500 entries. -/
def addCharacter (found : Bool) (alphabet : List Octet) (c : Octet) :
    Except Fault (List Octet) :=
  if found then .ok alphabet
  else if alphabet.length < 500 then .ok (alphabet ++ [c]) else .error pastTheEnd

/-- `PrintCxxPermittedAlphabetHandler` for one element. The characters of a text are `char`, so that
one from 128 on is never found. Whether an end is inclusive is not looked at. -/
def alphabetEntry (alphabet : List Octet) : SubtypeValue → Except Fault (List Octet)
  | .singleValue (.text octs) =>
      octs.reverse.foldlM (fun alphabet c =>
        addCharacter (decide (c ∈ alphabet ∧ c.toNat < 128)) alphabet c) alphabet
  | .valueRange ⟨.text lower, _⟩ ⟨.text upper, _⟩ =>
      if (upper.headD 0).toNat = 255 then .error (.undefinedBehaviour "the loop does not end")
      else (List.range' (lower.headD 0).toNat
        ((upper.headD 0).toNat + 1 - (lower.headD 0).toNat)).foldlM (fun alphabet c =>
          addCharacter (decide (BitVec.ofNat 8 c ∈ alphabet)) alphabet (BitVec.ofNat 8 c)) alphabet
  | .singleValue _ | .valueRange _ _ => .error (.undefinedBehaviour "a text that is none")
  | .sizeConstraint _ | .permittedAlphabet _ => return alphabet

/-- One step of `FindPermittedAlpha`. A FROM whose constraint is a list is passed over. -/
def alphabetStep (alphabet : List Octet) : SubtypeValue → Except Fault (List Octet)
  | .permittedAlphabet (.single value) => alphabetEntry alphabet value
  | .permittedAlphabet _ | .valueRange _ _ | .singleValue _ | .sizeConstraint _ => return alphabet

/-- The characters of `0x%x` and of the comma in front. -/
def textLength (alphabet : List Octet) : ℕ :=
  (alphabet.map fun c => if c.toNat < 16 then 4 else 5).sum - 1

/-- The alphabet that is emitted, in its order; its text has to fit into 1000 characters. -/
def permittedAlphabet (s : Subtype) : Except Fault (List Octet) := do
  let alphabet ← (gathered s).foldlM alphabetStep []
  if 1000 ≤ textLength alphabet then throw pastTheEnd
  return ExchangeSort.sort BitVec.toNat alphabet

/-! ### What is compiled -/

/-- The types by what is emitted for them. For NumericString, PrintableString, IA5String and
VisibleString there are the characters of the type; for the other strings nothing is emitted. -/
inductive Kind
  | integer
  | string (characters : List Octet)
  | otherString
  | bitsOrOctets

/-- The value ranges stand for the integers that are permitted. -/
def ValuesCompiled (s : Subtype) : Prop :=
  ∃ ranges, valueRanges s = .ok ranges ∧ ∀ v, Satisfies ranges v ↔ Holds (PermitsValue v) s

/-- The entries stand for the sizes that are permitted. -/
def SizesCompiled (s : Subtype) : Prop :=
  ∃ sizes, sizeConstraints s = .ok sizes ∧
    ∀ size, (sizes = [] ∨ ∃ c ∈ sizes, c.Admits size) ↔ Holds (PermitsSize size) s

/-- The alphabet, or without one the characters of the type, are those that are permitted. -/
def AlphabetCompiled (characters : List Octet) (s : Subtype) : Prop :=
  ∃ alphabet, permittedAlphabet s = .ok alphabet ∧
    ∀ o ∈ characters, (alphabet = [] ∨ o ∈ alphabet) ↔ Holds (PermitsCharacter o) s

def Compiled : Kind → Subtype → Prop
  | .integer, s => ValuesCompiled s
  | .string characters, s => SizesCompiled s ∧ AlphabetCompiled characters s
  | .otherString, s => (∀ size, Holds (PermitsSize size) s) ∧ ∀ o, Holds (PermitsCharacter o) s
  | .bitsOrOctets, s => SizesCompiled s

end Esnacc.Generated.Constraints
