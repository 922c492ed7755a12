import Esnacc.Runtime.Json

/-!
The names of the members of a generated class. `FillCxxFieldNames` gives every element of a
SEQUENCE, a SET or a CHOICE a name of its own: from the name in the ASN.1 file, or from its type
where it has none. Two elements of one name would be a class that is not C++.
-/

namespace Esnacc.Generated

open BitString

abbrev Name := List Octet

/-- What `FillCxxFieldNames` reads of an element: `et->fieldName`, and the name of its type. -/
structure Named where
  fieldName : Option Name
  typeName : Name

/-- `Dash2Underscore`. -/
def dash2Underscore (str : Name) : Name := str.map fun ch => if ch = 0x2D then 0x5F else ch

/-- `if (isupper(str[0])) str[0] = tolower(str[0])`. -/
def lowerFirst : Name → Name
  | [] => []
  | ch :: str => (if 0x41 ≤ ch ∧ ch ≤ 0x5A then ch + 0x20 else ch) :: str

/-- `DIGIT_TO_ASCII`. -/
def digitToAscii (d : ℕ) : Octet := BitVec.ofNat 8 (d % 10 + 0x30)

/-- The loop of `AppendDigit`, which writes no digit that is zero. -/
def digitStr (digit : ℕ) : List ℕ → Name
  | [] => []
  | high :: highs =>
      if digit / high ≠ 0 then digitToAscii (digit / high) :: digitStr (digit % high) highs
      else digitStr (digit % high) highs

def appendDigit (str : Name) (digit : ℕ) : Name :=
  match digitStr digit [1000000000, 100000000, 10000000, 1000000, 100000, 10000, 1000, 100, 10, 1]
  with
  | [] => str ++ [0x30]
  | digits => str ++ digits

/-- The loop of `MakeCxxStrUnique` from `digit` on, with `left` digits after it. -/
def firstUnique (nameList : List Name) (str : Name) : ℕ → ℕ → Name
  | digit, 0 => appendDigit str digit
  | digit, left + 1 =>
      if appendDigit str digit ∈ nameList then firstUnique nameList str (digit + 1) left
      else appendDigit str digit

variable (isCxxKeyWord : Name → Bool)

/-- Digits from 1 on are tried while they have at most four places. -/
def makeCxxStrUnique (nameList : List Name) (str : Name) : Name :=
  if str ∈ nameList ∨ isCxxKeyWord str then firstUnique nameList str 1 9998 else str

/-- The first loop names the elements that have a name in the ASN.1 file. -/
def nameNamed : List Named → List Name → List (Option Name) × List Name
  | [], nameList => ([], nameList)
  | et :: elmts, nameList =>
      match et.fieldName with
      | none =>
          let (names, nameList) := nameNamed elmts nameList
          (none :: names, nameList)
      | some fieldName =>
          let name := makeCxxStrUnique isCxxKeyWord nameList (dash2Underscore fieldName)
          let (names, nameList) := nameNamed elmts (name :: nameList)
          (some name :: names, nameList)

/-- The second loop names the others. -/
def nameOthers : List Named → List (Option Name) → List Name → List Name
  | et :: elmts, none :: names, nameList =>
      let name := makeCxxStrUnique isCxxKeyWord nameList (lowerFirst (dash2Underscore et.typeName))
      name :: nameOthers elmts names (name :: nameList)
  | _ :: elmts, some name :: names, nameList => name :: nameOthers elmts names nameList
  | _, _, _ => []

def fillCxxFieldNames (elmts : List Named) : List Name :=
  let (names, nameList) := nameNamed isCxxKeyWord elmts []
  nameOthers isCxxKeyWord elmts names nameList

end Esnacc.Generated
