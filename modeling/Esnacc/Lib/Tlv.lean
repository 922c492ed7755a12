import Esnacc.Lib.BitString

/-!
Tag-length-value encodings, as octets. An element is written as identifier
octets, length octets and contents; the contents of a constructed element are
elements again, and its length is given in advance or left open, to be closed by
two zero octets. Nothing is said about which of the many encodings of a tag or a
length is the preferred one.
-/

namespace Tlv

open BitString

/-- The octets that continue an identifier: all but the last have the high bit
set. -/
def isSubsequent : List Octet → Bool
  | [] => false
  | o :: os => if o &&& 0x80 = 0 then os.isEmpty else isSubsequent os

/-- Identifier octets. A single zero octet is none, since it ends contents. -/
def isIdentifier : List Octet → Bool
  | [] => false
  | o :: os => if o &&& 0x1F = 0x1F then isSubsequent os else os.isEmpty && o != 0

/-- The bit of the identifier that tells constructed elements apart. -/
def isConstructed (tag : List Octet) : Bool := tag.headD 0 &&& 0x20 != 0

/-- Octets that denote the length `n`. -/
def isLengthOf (n : ℕ) : List Octet → Bool
  | [] => false
  | o :: os =>
      if o.toNat < 128 then os.isEmpty && o.toNat == n
      else 0 < os.length && os.length < 127 && o.toNat == 128 + os.length && natOfOctets os == n

/-- The octet in place of a length that is left open. -/
def openLength : Octet := 0x80

/-- What ends contents whose length was left open. -/
def endOfContents : List Octet := [0, 0]

inductive Element
  | primitive (tag len contents : List Octet)
  | definite (tag len : List Octet) (elements : List Element)
  | indefinite (tag : List Octet) (elements : List Element)

namespace Element

mutual

def octets : Element → List Octet
  | primitive tag len contents => tag ++ (len ++ contents)
  | definite tag len elements => tag ++ (len ++ octetsAll elements)
  | indefinite tag elements => tag ++ (openLength :: (octetsAll elements ++ endOfContents))

def octetsAll : List Element → List Octet
  | [] => []
  | t :: ts => octets t ++ octetsAll ts

end

mutual

def WellFormed : Element → Prop
  | primitive tag len contents =>
      isIdentifier tag ∧ isConstructed tag = false ∧ isLengthOf contents.length len
  | definite tag len elements =>
      isIdentifier tag ∧ isConstructed tag = true ∧
        isLengthOf (octetsAll elements).length len ∧ WellFormedAll elements
  | indefinite tag elements =>
      isIdentifier tag ∧ isConstructed tag = true ∧ WellFormedAll elements

def WellFormedAll : List Element → Prop
  | [] => True
  | t :: ts => WellFormed t ∧ WellFormedAll ts

end

/-- The length of the element is given in advance. -/
def HasDefiniteLength : Element → Prop
  | primitive _ _ _ | definite _ _ _ => True
  | indefinite _ _ => False

/-- The identifier and the length octets. -/
def header : Element → List Octet × List Octet
  | primitive tag len _ => (tag, len)
  | definite tag len _ => (tag, len)
  | indefinite tag _ => (tag, [openLength])

/-- What stands behind the length octets. -/
def body : Element → List Octet
  | primitive _ _ contents => contents
  | definite _ _ elements => octetsAll elements
  | indefinite _ elements => octetsAll elements ++ endOfContents

theorem octets_eq (t : Element) : t.octets = t.header.1 ++ (t.header.2 ++ t.body) := by
  cases t <;> simp [octets, header, body]

end Element

end Tlv
