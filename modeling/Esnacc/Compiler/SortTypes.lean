import Esnacc.Lib.Precedence

/-!
The order in which the type definitions of a module are generated (`dependency.c`). It is
settled after the types have been linked, normalised and marked recursive and after the C or
C++ type infos have been filled in. Definitions are told apart by an index; the table of
definitions holds those of all modules, since references to imported types count for
`MarkRecursiveTypes`.
-/

namespace Esnacc.Compiler.Dependency

open Relation Precedence

/-- What a type reference links to, and the flag `isPtr` of its C and of its C++ type info,
`none` where there is no such info. -/
structure TypeRef (ι : Type) where
  link : ι
  cTypeRefInfo : Option Bool
  cxxTypeRefInfo : Option Bool
  deriving DecidableEq

/-- Whether one of the infos there are says that the reference is not a pointer. -/
def TypeRef.isValue {ι : Type} (ref : TypeRef ι) : Bool :=
  ref.cxxTypeRefInfo = some false || ref.cTypeRefInfo = some false

/-- A type by what the sorter tells apart: `library` are the types `IsDefinedByLibraryType`
is true of. A list type says whether it has a C type info. -/
inductive AsnType (ι : Type) where
  | library
  | choice (elmts : List (AsnType ι))
  | set (elmts : List (AsnType ι))
  | sequence (elmts : List (AsnType ι))
  | objectClass (classdef : List (AsnType ι))
  | setOf (cTypeRefInfo : Bool) (elmt : AsnType ι)
  | sequenceOf (cTypeRefInfo : Bool) (elmt : AsnType ι)
  | localTypeRef (ref : TypeRef ι)
  | importTypeRef (ref : TypeRef ι)
  | other

structure TypeDef (ι : Type) where
  type : AsnType ι
  localRefCount : ℕ
  recursive : Bool
  /-- Whether there is a C type info of the definition. -/
  cTypeDefInfo : Bool

namespace AsnType

variable {ι : Type}

def isDefinedByLibraryType : AsnType ι → Bool
  | .library => true
  | _ => false

mutual

def buildLocalRefList : AsnType ι → List ι
  | .choice elmts | .set elmts | .sequence elmts => buildLocalRefLists elmts
  | .objectClass classdef => buildLocalRefLists classdef
  | .setOf _ elmt | .sequenceOf _ elmt => buildLocalRefList elmt
  | .localTypeRef ref => [ref.link]
  | .library | .importTypeRef _ | .other => []

def buildLocalRefLists : List (AsnType ι) → List ι
  | [] => []
  | e :: es => buildLocalRefList e ++ buildLocalRefLists es

end

mutual

/-- The references that are left when those by pointer are not counted. Of a list that has a
C type info not even the component counts. -/
def buildWeightedLocalRefList : AsnType ι → List ι
  | .choice elmts | .set elmts | .sequence elmts => buildWeightedLocalRefLists elmts
  | .setOf cTypeRefInfo elmt | .sequenceOf cTypeRefInfo elmt =>
      if cTypeRefInfo then [] else buildWeightedLocalRefList elmt
  | .localTypeRef ref => if ref.isValue then [ref.link] else []
  | .objectClass _ | .library | .importTypeRef _ | .other => []

def buildWeightedLocalRefLists : List (AsnType ι) → List ι
  | [] => []
  | e :: es => buildWeightedLocalRefList e ++ buildWeightedLocalRefLists es

end

def isList : AsnType ι → Bool
  | .setOf _ _ | .sequenceOf _ _ => true
  | _ => false

end AsnType

/-! ### Sorting -/

section Sorting

variable {ι : Type} [DecidableEq ι]

/-- The index of a definition in the list, `none` for -1. -/
def getElmtIndex (td : ι) (tdl : List ι) : Option ℕ := tdl.idxOf? td

/-- Whether something else on the list is referenced. -/
def keep (refList : List ι) (currTd : ι) (tdl : List ι) : Bool :=
  refList.any fun tdRef => tdRef ≠ currTd && (getElmtIndex tdRef tdl).isSome

/-- One round over the list: what is taken off it, and what stays. The part of the list
before the cursor comes first. -/
def sweep (refList : ι → List ι) (front : List ι) : List ι → List ι × List ι
  | [] => ([], front)
  | currTd :: rest =>
      if keep (refList currTd) currTd (front ++ currTd :: rest) then
        sweep refList (front ++ [currTd]) rest
      else (currTd :: (sweep refList front rest).1, (sweep refList front rest).2)

/-- Rounds until one takes nothing off, so many at most. -/
def sweeps (refList : ι → List ι) : ℕ → List ι → List ι × List ι
  | 0, tdl => ([], tdl)
  | n + 1, tdl =>
      if (sweep refList [] tdl).1 = [] then ([], tdl)
      else
        ((sweep refList [] tdl).1 ++ (sweeps refList n (sweep refList [] tdl).2).1,
          (sweeps refList n (sweep refList [] tdl).2).2)

/-- The sorted list and what is left of the given one. A round that takes something off makes
the list shorter, so that there are no more rounds than members. -/
def removeAndSortIndependents (refList : ι → List ι) (tdl : List ι) : List ι × List ι :=
  sweeps refList tdl.length tdl

variable (typeDef : ι → TypeDef ι)

def localRefList (td : ι) : List ι := (typeDef td).type.buildLocalRefList

def weightedRefList (td : ι) : List ι := (typeDef td).type.buildWeightedLocalRefList

/-- A list type that is generated for C, where lists do not depend on their component. -/
def isCList (td : ι) : Bool := (typeDef td).cTypeDefInfo && (typeDef td).type.isList

/-- The order of definitions that depend on each other; `none` when the last member of an
empty list is asked for. -/
def sortTypeDefs (tdl : List ι) : Option (List ι) :=
  let (subList, rest) := removeAndSortIndependents (localRefList typeDef) tdl
  if rest = [] then some subList
  else
    let nonRec := rest.filter fun td => !(typeDef td).recursive
    let recs := rest.filter fun td => (typeDef td).recursive
    let (sortedNonRec, failed) := removeAndSortIndependents (localRefList typeDef) nonRec
    if recs = [] then none
    else
      let cLists := recs.filter fun td => isCList typeDef td
      let generic := recs.filter fun td => !isCList typeDef td
      let (sortedRec, impossible) := removeAndSortIndependents (weightedRefList typeDef) generic
      some (subList ++ (cLists ++ (sortedRec ++ (impossible ++ (sortedNonRec ++ failed)))))

inductive Group where
  | prims
  | notRefd
  | noRefs
  | refs
  deriving DecidableEq

def groupOf (td : ι) : Group :=
  if (typeDef td).type.isDefinedByLibraryType then .prims
  else if (typeDef td).localRefCount = 0 then .notRefd
  else if localRefList typeDef td = [] then .noRefs
  else .refs

def group (g : Group) (typeDefs : List ι) : List ι :=
  typeDefs.filter fun td => groupOf typeDef td = g

def sortTypeDependencies (typeDefs : List ι) : Option (List ι) :=
  (sortTypeDefs typeDef (group typeDef .refs typeDefs)).map fun refs =>
    group typeDef .prims typeDefs ++ (group typeDef .noRefs typeDefs ++
      (refs ++ group typeDef .notRefd typeDefs))

end Sorting

/-! ### The order that is wanted -/

namespace AsnType

variable {ι : Type}

mutual

/-- What a type is made of in the end, references not followed. -/
def parts : AsnType ι → List (AsnType ι)
  | .choice elmts | .set elmts | .sequence elmts => partsOfAll elmts
  | .objectClass classdef => partsOfAll classdef
  | .setOf _ elmt | .sequenceOf _ elmt => parts elmt
  | .localTypeRef ref => [.localTypeRef ref]
  | .importTypeRef ref => [.importTypeRef ref]
  | .library => [.library]
  | .other => [.other]

def partsOfAll : List (AsnType ι) → List (AsnType ι)
  | [] => []
  | e :: es => parts e ++ partsOfAll es

end

/-- The type has no constituents. -/
def Plain : AsnType ι → Prop
  | .library | .localTypeRef _ | .importTypeRef _ | .other => True
  | _ => False

/-- Constituents that have constituents themselves have become type definitions. -/
def Normalised : AsnType ι → Prop
  | .choice elmts | .set elmts | .sequence elmts => ∀ e ∈ elmts, e.Plain
  | .objectClass classdef => ∀ e ∈ classdef, e.Plain
  | .setOf _ elmt | .sequenceOf _ elmt => elmt.Plain
  | _ => True

/-- `MarkRecursiveTypes` does not look into object classes. -/
def isObjectClass : AsnType ι → Bool
  | .objectClass _ => true
  | _ => false

end AsnType

section Relations

variable {ι : Type} (typeDef : ι → TypeDef ι)

/-- The first is defined with a reference to the second in its module. -/
def LocalRef (x y : ι) : Prop :=
  ∃ ref, .localTypeRef ref ∈ (typeDef x).type.parts ∧ ref.link = y

/-- The same for a reference whose flag `isPtr` is not set. -/
def ByValue (x y : ι) : Prop :=
  ∃ ref, .localTypeRef ref ∈ (typeDef x).type.parts ∧ ref.link = y ∧ ref.isValue = true

def Refers (x y : ι) : Prop :=
  LocalRef typeDef x y ∨
    ∃ ref, .importTypeRef ref ∈ (typeDef x).type.parts ∧ ref.link = y

/-- A reference that `MarkRecursiveTypes` follows. -/
def Follows (x y : ι) : Prop :=
  (typeDef x).type.isObjectClass = false ∧ Refers typeDef x y

def DependsOn : ι → ι → Prop := TransGen (Refers typeDef)

def ContainsByValue (x y : ι) : Prop :=
  ByValue typeDef x y ∨ LocalRef typeDef x y ∧ (typeDef x).recursive = false ∧
    (typeDef y).recursive = false

/-- The dependencies among the members of a class. -/
def Within (R : ι → ι → Prop) (p : ι → Prop) (x y : ι) : Prop := R x y ∧ p x ∧ p y

end Relations

/-- A module whose types are linked, normalised and marked recursive, and whose type infos
have been filled in. -/
structure SortInput (ι : Type) where
  typeDef : ι → TypeDef ι
  typeDefs : List ι
  nodup : typeDefs.Nodup
  linked : ∀ x ∈ typeDefs, ∀ y, LocalRef typeDef x y →
    y ∈ typeDefs ∧ (typeDef y).localRefCount ≠ 0
  normalised : ∀ x ∈ typeDefs, (typeDef x).type.Normalised
  marked : ∀ x ∈ typeDefs, (typeDef x).recursive = true ↔ TransGen (Follows typeDef) x x
  /-- C type infos are filled in for definitions and for their types alike. -/
  filled : ∀ x ∈ typeDefs, (typeDef x).cTypeDefInfo = false → ∀ c elmt,
    (typeDef x).type = .setOf c elmt ∨ (typeDef x).type = .sequenceOf c elmt → c = false

namespace SortInput

variable {ι : Type} (m : SortInput ι)

/-- What is contained by value stands before what contains it. -/
def Sorted (l : List ι) : Prop :=
  ∀ x ∈ m.typeDefs, ∀ y ∈ m.typeDefs, ContainsByValue m.typeDef x y →
    ¬ DependsOn m.typeDef y x → Before l y x

/-- The sorter returns the definitions it was given, in the order that is wanted. -/
def SortsTypes [DecidableEq ι] : Prop :=
  ∃ l, sortTypeDependencies m.typeDef m.typeDefs = some l ∧ l.Perm m.typeDefs ∧ m.Sorted l

/-- The definition leads to definitions that depend on each other, and its place is sorted
out, since it is referenced in the module. -/
def Knotted (x : ι) : Prop :=
  x ∈ m.typeDefs ∧ (m.typeDef x).localRefCount ≠ 0 ∧ LeadsToKnot (LocalRef m.typeDef) x

/-- The definitions that are sorted by their references by value. -/
def Weighted (x : ι) : Prop :=
  (m.typeDef x).recursive = true ∧ isCList m.typeDef x = false

def NonRec (x : ι) : Prop := (m.typeDef x).recursive = false

/-- When the order comes out as it is wanted. The conditions on pairs are about a definition
that contains another one that does not depend on it. -/
structure Sortable : Prop where
  /-- Where definitions depend on each other, some of them are marked recursive. -/
  marks : (∃ x, m.Knotted x) → ∃ x, m.Knotted x ∧ (m.typeDef x).recursive = true
  /-- What is recursive contains by value nothing that is not and that depends in turn on
  definitions in a knot. -/
  recursive : ∀ x y, m.Knotted x → m.Knotted y → ByValue m.typeDef x y →
    ¬ DependsOn m.typeDef y x → (m.typeDef x).recursive = true → ¬ m.NonRec y
  /-- What leads by value to a knot of references by value stands in order already. -/
  weighted : ∀ x y, m.Knotted x → m.Knotted y → ByValue m.typeDef x y →
    ¬ DependsOn m.typeDef y x → m.Weighted x → m.Weighted y →
    LeadsToKnot (Within (ByValue m.typeDef) m.Weighted) y → Before m.typeDefs y x
  /-- What leads to a knot that is not marked recursive stands in order already. -/
  nonRec : ∀ x y, m.Knotted x → m.Knotted y → LocalRef m.typeDef x y →
    ¬ DependsOn m.typeDef y x → m.NonRec x → m.NonRec y →
    LeadsToKnot (Within (LocalRef m.typeDef) m.NonRec) y → Before m.typeDefs y x

end SortInput

end Esnacc.Compiler.Dependency
