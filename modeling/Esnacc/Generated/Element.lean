import Esnacc.Generated.Tag

/-!
One element of a generated SEQUENCE or SET: what the emitted code writes for it, and how it is
read once its first tag has been recognised. The class of the element is a parameter.
-/

namespace Esnacc.Generated

open BitString Tlv

/-- What `GetBuiltinType` says of an element, as far as the emitters look at it. -/
inductive Kind
  | any | anyDefinedBy | choice | extension | other
  deriving DecidableEq, Repr

/-- The encoders and decoders of a class. The contents of a CHOICE begin with the tag of its
alternative; `bEnc` and `bDec` are only called for open types. -/
structure BerClass (α : Type) where
  bEncContent : α → List Octet
  bEnc : α → List Octet
  bDecContent : AsnTag → ℕ → ℕ → BerM (α × ℕ)
  bDec : ℕ → BerM (α × ℕ)

/-- An element of a SEQUENCE or a SET. Of the tags, those of a CHOICE that were stolen are
alternatives, and the others follow one another. `lenient` is the second tag that the first
OPTIONAL element is matched with. -/
structure BerElmt (α : Type) where
  tags : List BerTag
  stoleChoiceTags : Bool
  kind : Kind
  optional : Bool
  hasDefault : Bool
  extensionAddition : Bool
  lenient : Option BerTag
  hasShortLen : Bool
  cls : BerClass α

namespace BerElmt

variable {α : Type}

/-- `IsCxxPtr` for an element that is not of type EXTERNAL, and what `IsTailOptional` asks of an
element. -/
def isPtr (e : BerElmt α) : Bool := e.optional || e.hasDefault

/-! ### Encoding -/

/-- `PrintCxxTagAndLenList`: the last tag is written first. -/
def bEncTags (isShort : Bool) (tags : List BerTag) (content : List Octet) : List Octet :=
  tags.foldr (fun tg written => tg.octets ++ (bEncLen tg.isCons isShort written.length ++ written))
    content

/-- What is written before the tags. -/
def bEncValue (e : BerElmt α) (x : α) : List Octet :=
  match e.kind with
  | .any | .anyDefinedBy => e.cls.bEnc x
  | .choice | .extension | .other => e.cls.bEncContent x

/-- The octets of an element. -/
def bEncElmt (e : BerElmt α) (x : α) : List Octet :=
  if e.stoleChoiceTags then e.bEncValue x else bEncTags e.hasShortLen e.tags (e.bEncValue x)

/-! ### Decoding -/

/-- The condition around the code of an element. -/
def test (e : BerElmt α) (tag1 : AsnTag) : Bool :=
  match e.tags with
  | [] => !e.isPtr || tag1 != 0
  | tg :: tags =>
      tg.accepts tag1 ||
        if e.stoleChoiceTags then tags.any fun tg => tg.accepts tag1
        else e.lenient.any fun tg => tg.accepts tag1

/-- The tags after the first one, with their lengths. The level that was read last is the first
of the lengths. -/
def bDecTags : List BerTag → AsnTag → List ℕ → ℕ → BerM (AsnTag × List ℕ × ℕ)
  | [], tag1, elmtLens, n => return (tag1, elmtLens, n)
  | tg :: tags, _, elmtLens, n => do
      let (tag1, n) ← bDecTag n
      if tg.accepts tag1 then
        let (elmtLen, n) ← bDecLen n
        bDecTags tags tag1 (elmtLen :: elmtLens) n
      else throw (invalidTagException "")

/-- `decode Eoc (s)`, from the inner levels to the outer ones. -/
def bDecEocs : List ℕ → ℕ → BerM ℕ
  | [], n => return n
  | elmtLen :: elmtLens, n =>
      if elmtLen = indefiniteLen then do
        let n ← bDecEoc n
        bDecEocs elmtLens n
      else bDecEocs elmtLens n

/-- The header of an element, of which `tag1` has been read. -/
def bDecHeader (e : BerElmt α) (tag1 : AsnTag) (n : ℕ) : BerM (AsnTag × List ℕ × ℕ) :=
  match e.tags with
  | [] => return (tag1, [], n)
  | _ :: tags => do
      let (elmtLen, n) ← bDecLen n
      if e.stoleChoiceTags then return (tag1, [elmtLen], n)
      else bDecTags tags tag1 [elmtLen] n

/-- The tag whose contents a constructed, indexed ANY is decoded from. -/
def unwraps (e : BerElmt α) : Bool :=
  e.isPtr && e.kind = .any &&
    match e.tags.getLast? with
    | some tg => tg.tclass = .cntx && tg.form = .cons
    | none => false

/-- The key tag of a CHOICE whose tags were not stolen, and the tag inside of an ANY. -/
def bDecKey (e : BerElmt α) (tag1 : AsnTag) (elmtLens : List ℕ) (n : ℕ) :
    BerM (AsnTag × List ℕ × ℕ) :=
  if e.stoleChoiceTags = false ∧ e.kind = .choice then do
    let (tag1, n) ← bDecTag n
    let (elmtLen, n) ← bDecLen n
    return (tag1, elmtLen :: elmtLens, n)
  else if e.unwraps then do
    let (tag1, n) ← bDecTag n
    let (elmtLen, n) ← bDecLen n
    return (tag1, elmtLen :: elmtLens.tail, n)
  else return (tag1, elmtLens, n)

/-- The contents. An untagged ANY has no length yet, and `ANY DEFINED BY` reads a tag of its
own. -/
def bDecBody (e : BerElmt α) (tag1 : AsnTag) (elmtLens : List ℕ) (n : ℕ) :
    BerM (α × List ℕ × ℕ) :=
  if e.kind = .anyDefinedBy then do
    let (x, n) ← e.cls.bDec n
    return (x, 0 :: elmtLens, n)
  else
    match elmtLens with
    | [] => do
        let (elmtLen, n) ← bDecLen n
        let (x, n) ← e.cls.bDecContent tag1 elmtLen n
        return (x, [elmtLen], n)
    | elmtLen :: elmtLens => do
        let (x, n) ← e.cls.bDecContent tag1 elmtLen n
        return (x, elmtLen :: elmtLens, n)

/-- What follows the tags of an element. -/
def bDecContents (e : BerElmt α) (tag1 : AsnTag) (elmtLens : List ℕ) (n : ℕ) :
    BerM (α × AsnTag × ℕ) := do
  let (tag1, elmtLens, n) ← e.bDecKey tag1 elmtLens n
  let (x, elmtLens, n) ← e.bDecBody tag1 elmtLens n
  let n ← bDecEocs elmtLens.tail n
  return (x, tag1, n)

/-- The code of an element in the branch where its tag was found. -/
def bDecElmt (e : BerElmt α) (tag1 : AsnTag) (n : ℕ) : BerM (α × AsnTag × ℕ) := do
  let (tag1, elmtLens, n) ← e.bDecHeader tag1 n
  e.bDecContents tag1 elmtLens n

/-- No `else` branch throws for an element that may be absent, nor for an untagged one. -/
def required (e : BerElmt α) : Bool := !e.tags.isEmpty && !e.optional && !e.hasDefault

/-- What `RestAreTailOptional` asks of an element. -/
def mayBeAbsent (e : BerElmt α) : Bool := e.optional || e.hasDefault || e.extensionAddition

end BerElmt

end Esnacc.Generated
