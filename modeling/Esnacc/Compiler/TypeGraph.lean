import Esnacc.Lib.Walk

/-!
The types and values of linked modules, as the walks of the compiler see them. A type is
a node with its tags; what it contains and what its references are linked to are other
nodes. The walks follow these links.
-/

namespace Esnacc.Compiler

inductive TagClass
  | univ | appl | cntx | priv
  deriving DecidableEq, Repr

/-- For a tag that is given by a value reference, `valueRef` is the number `DetermineCode`
finds behind it, which is 500 if it finds none. -/
structure Tag where
  tclass : TagClass
  code : ℤ
  valueRef : Option ℤ
  deriving DecidableEq, Repr

/-- `DetermineCode` for a number: the text is cut off where the buffer of five ends. -/
def determineCode (t : Tag) : List Char := (toString (t.valueRef.getD t.code)).toList.take 4

def tagObjCmp (t₁ t₂ : Tag) : Bool :=
  if t₁.valueRef = none ∧ t₂.valueRef = none then t₁.tclass = t₂.tclass ∧ t₁.code = t₂.code
  else determineCode t₁ = determineCode t₂

theorem tagObjCmp_self (t : Tag) : tagObjCmp t t = true := by
  rw [tagObjCmp]
  split <;> simp

/-- A local or imported reference with the type of the definition it is linked to, a CHOICE
with the types of its elements, or a type without further links. -/
inductive BasicType (ι : Type)
  | typeRef (link : Option ι)
  | choice (elmts : List ι)
  | other
  deriving DecidableEq, Repr

structure TypeNode (ι : Type) where
  tags : List Tag
  isImplicit : Bool
  basicType : BasicType ι
  deriving DecidableEq, Repr

inductive BasicValue (κ : Type)
  | valueRef (link : Option κ)
  | other
  deriving DecidableEq, Repr

structure TypeGraph (ι κ : Type) where
  type : ι → TypeNode ι
  value : κ → BasicValue κ

namespace TypeGraph

variable {ι κ : Type} (m : TypeGraph ι κ)

/-- The loop of `ResolveImportedType`, which gives back where it has started from if a
reference is not linked. -/
def resolveImportedTypeFrom (start : ι) : ℕ → ι → Option ι
  | 0, _ => none
  | fuel + 1, t =>
      match (m.type t).basicType with
      | .typeRef none => some start
      | .typeRef (some u) => resolveImportedTypeFrom start fuel u
      | _ => some t

def resolveImportedType (fuel : ℕ) (t : ι) : Option ι := m.resolveImportedTypeFrom t fuel t

/-- `GetValue`; the inner `none` is the null pointer that is returned with an error. -/
def getValue : ℕ → κ → Option (Option κ)
  | 0, _ => none
  | fuel + 1, v =>
      match m.value v with
      | .valueRef none => some none
      | .valueRef (some w) => getValue fuel w
      | .other => some (some v)

/-- Where a reference is followed to `u`, the rest of the tag list that is gone through next
and the new `implicitRef`. -/
def enter (u : ι) (implicitRef : Bool) : List Tag × Bool :=
  if (m.type u).tags ≠ [] ∧ implicitRef = true then ((m.type u).tags.tail, false)
  else ((m.type u).tags, implicitRef)

/-- `implicitRef` when the reference `t` is followed. -/
def refIsImplicit (t : ι) (implicitRef : Bool) : Bool := implicitRef || (m.type t).isImplicit

/-- The loop of `CountTags`; `tl` is the rest of the tag list at hand. -/
def countTagsFrom : ℕ → ι → List Tag → Bool → ℕ → Option ℕ
  | 0, _, _, _, _ => none
  | fuel + 1, t, tl, implicitRef, tagCount =>
      match (m.type t).basicType with
      | .typeRef (some u) =>
          let (tl', implicitRef) := m.enter u (m.refIsImplicit t implicitRef)
          countTagsFrom fuel u tl' implicitRef (tagCount + tl.length)
      | _ => some (tagCount + tl.length)

def countTags (fuel : ℕ) (t : ι) : Option ℕ := m.countTagsFrom fuel t (m.type t).tags false 0

/-- The loop of `GetTags` up to the type that is not a linked reference: the tags that are
collected, and this type. -/
def collectTags : ℕ → ι → List Tag → Bool → List Tag → Option (List Tag × ι)
  | 0, _, _, _, _ => none
  | fuel + 1, t, tl, implicitRef, retVal =>
      match (m.type t).basicType with
      | .typeRef (some u) =>
          let (tl', implicitRef) := m.enter u (m.refIsImplicit t implicitRef)
          collectTags fuel u tl' implicitRef (retVal ++ tl)
      | _ => some (retVal ++ tl, t)

/-- `snacc_exit`: the compiler ends with a message. -/
structure SnaccExit where
  message : String
  deriving DecidableEq, Repr

/-- What `GetTags` adds for one element of an untagged CHOICE. -/
def stealTags (retVal : List Tag) :
    Option (Except SnaccExit (List Tag × Bool)) → Option (Except SnaccExit (List Tag))
  | none => none
  | some (.error e) => some (.error e)
  | some (.ok (tl, stoleChoicesAgain)) =>
      if stoleChoicesAgain then some (.ok (retVal ++ tl))
      else
        match tl with
        | [] => some (.error ⟨"Invalid parameter, tl->first == NULL"⟩)
        | tag :: _ => some (.ok (retVal ++ [tag]))

/-- `GetTags` with `*stoleChoiceTags`. The form of a tag is left out. -/
def getTags : ℕ → ι → Option (Except SnaccExit (List Tag × Bool))
  | 0, _ => none
  | fuel + 1, t =>
      match m.collectTags (fuel + 1) t (m.type t).tags false [] with
      | none => none
      | some (retVal, u) =>
          match (m.type u).basicType with
          | .choice elmts =>
              if retVal = [] then
                (Walk.forEach (fun retVal e => stealTags retVal (getTags fuel e)) elmts retVal).map
                  fun r => r.map fun retVal => (retVal, true)
              else some (.ok (retVal, false))
          | _ => some (.ok (retVal, false))

/-- What a type starts with: a tag, the elements of an untagged CHOICE, or neither. -/
inductive Front (ι : Type)
  | tag (tag : Tag)
  | choice (elmts : List ι)
  | bare
  deriving DecidableEq, Repr

/-- The loop of `AddFirstTag` up to what the type starts with. -/
def firstTag : ℕ → ι → List Tag → Bool → Option (Front ι)
  | 0, _, _, _ => none
  | _ + 1, _, tag :: _, _ => some (.tag tag)
  | fuel + 1, t, [], implicitRef =>
      match (m.type t).basicType with
      | .typeRef none => some .bare
      | .typeRef (some u) =>
          let (tl, implicitRef) := m.enter u (m.refIsImplicit t implicitRef)
          firstTag fuel u tl implicitRef
      | .choice elmts => some (.choice elmts)
      | .other => some .bare

/-- `AddFirstTag`: the new list of tags, as an error where FALSE is returned. -/
def addFirstTag : ℕ → List Tag → ι → Option (Except (List Tag) (List Tag))
  | 0, _, _ => none
  | fuel + 1, definedTags, t =>
      match m.firstTag (fuel + 1) t (m.type t).tags false with
      | none => none
      | some (.tag tag) =>
          if definedTags.any fun tag' => tagObjCmp tag' tag then some (.error definedTags)
          else some (.ok (tag :: definedTags))
      | some (.choice elmts) =>
          Walk.forEach (fun definedTags e => addFirstTag fuel definedTags e) elmts definedTags
      | some .bare => some (.ok definedTags)

/-! ### What the walks need -/

/-- All the walks return, wherever they start. -/
structure WalksTerminate : Prop where
  resolveImportedType : ∀ t, ∃ fuel r, m.resolveImportedType fuel t = some r
  getValue : ∀ v, ∃ fuel r, m.getValue fuel v = some r
  countTags : ∀ t, ∃ fuel r, m.countTags fuel t = some r
  getTags : ∀ t, ∃ fuel r, m.getTags fuel t = some r
  addFirstTag : ∀ definedTags t, ∃ fuel r, m.addFirstTag fuel definedTags t = some r

/-- The type is a reference that is linked to the other one. -/
def RefersTo (t u : ι) : Prop := (m.type t).basicType = .typeRef (some u)

def ValueRefersTo (v w : κ) : Prop := m.value v = .valueRef (some w)

/-- What a type starts with when references are followed, `tl` being the rest of its tags. -/
inductive StartsWith : ι → List Tag → Bool → Front ι → Prop
  | tag (t : ι) (tag : Tag) (tl : List Tag) (implicitRef : Bool) :
      StartsWith t (tag :: tl) implicitRef (.tag tag)
  | choice {t : ι} {elmts : List ι} (implicitRef : Bool)
      (h : (m.type t).basicType = .choice elmts) : StartsWith t [] implicitRef (.choice elmts)
  | other {t : ι} (implicitRef : Bool) (h : (m.type t).basicType = .other) :
      StartsWith t [] implicitRef .bare
  | unlinked {t : ι} (implicitRef : Bool) (h : (m.type t).basicType = .typeRef none) :
      StartsWith t [] implicitRef .bare
  | link {t u : ι} {implicitRef : Bool} {front : Front ι} (h : m.RefersTo t u)
      (hfront : StartsWith u (m.enter u (m.refIsImplicit t implicitRef)).1
        (m.enter u (m.refIsImplicit t implicitRef)).2 front) :
      StartsWith t [] implicitRef front

/-- What a type starts with, as it stands. -/
def HasFront (t : ι) (front : Front ι) : Prop := m.StartsWith t (m.type t).tags false front

/-- Somewhere in a type there is a tag for every way to start it. -/
inductive Tagged : ι → Prop
  | tag {t : ι} {tag : Tag} (h : m.HasFront t (.tag tag)) : Tagged t
  | choice {t : ι} {elmts : List ι} (h : m.HasFront t (.choice elmts))
      (hall : ∀ e ∈ elmts, Tagged e) : Tagged t

/-- A type that starts with no tag at all. -/
inductive Tagless : ι → Prop
  | bare {t : ι} (h : m.HasFront t .bare) : Tagless t
  | choice {t : ι} {elmts : List ι} (h : m.HasFront t (.choice elmts))
      (hall : ∀ e ∈ elmts, Tagless e) : Tagless t

/-- `e` is an element of the untagged CHOICE `t`, and the elements before it are tagged. -/
def AfterTagged (t e : ι) : Prop :=
  ∃ pre post, m.HasFront t (.choice (pre ++ e :: post)) ∧ ∀ b ∈ pre, m.Tagged b

/-- `e` is an element of the untagged CHOICE `t`, and the elements before it have no tag. -/
def AfterTagless (t e : ι) : Prop :=
  ∃ pre post, m.HasFront t (.choice (pre ++ e :: post)) ∧ ∀ b ∈ pre, m.Tagless b

/-- No reference leads back to itself, and no untagged CHOICE contains itself behind elements
that are all tagged, or behind elements without any tag. -/
structure NoCircles : Prop where
  refersTo : Walk.Acyclic m.RefersTo
  valueRefersTo : Walk.Acyclic m.ValueRefersTo
  afterTagged : Walk.Acyclic m.AfterTagged
  afterTagless : Walk.Acyclic m.AfterTagless

end TypeGraph

end Esnacc.Compiler
