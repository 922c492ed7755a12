import Esnacc.Compiler.FirstTagTermination
import Esnacc.Compiler.ImportScope

/-!
The checks of `ErrChkModule` for names, tags and named numbers, with what they print. The
other checks (fields that `ANY DEFINED BY` refers to, implicit tags of untagged types,
warnings) are left out. Like the walks for tags the checks have fuel.
-/

namespace Esnacc.Compiler

/-- A named number or bit; `value` is the number behind its value, `none` if it is something
else than an integer. -/
structure NamedNumber where
  definedName : Name
  value : Option ℤ
  deriving DecidableEq, Repr

/-- What the checks look at in a type that is not a reference. -/
inductive Content (ι : Type)
  | namedNumbers (numbers : List NamedNumber)
  | namedBits (bits : List NamedNumber)
  | listOf (elmt : ι)
  | sequence (elmts : List ι)
  | objectClass (classdef : List ι)
  | choice (elmts : List ι)
  | set (elmts : List ι)
  | other
  deriving DecidableEq, Repr

/-- The parts of a type that are checked with it. -/
def Content.elmts {ι : Type} : Content ι → List ι
  | .listOf elmt => [elmt]
  | .sequence elmts | .objectClass elmts | .choice elmts | .set elmts => elmts
  | .namedNumbers _ | .namedBits _ | .other => []

/-- A linked module. `types` are the types of its definitions, and `optional` says whether an
element is optional or has a default. The compiler does not read the field `code` of a tag
that is given by a value reference; it stands for the number the reference denotes. -/
structure CheckedModule (ι κ : Type) where
  names : Module
  graph : TypeGraph ι κ
  content : ι → Content ι
  optional : ι → Bool
  types : List ι
  choices : ∀ t elmts, (graph.type t).basicType = .choice elmts ↔ content t = .choice elmts

/-- What is printed. -/
inductive Report
  | multiplyDefined (n : Name)
  | choiceConflict
  | setConflict
  | seqConflict
  | sameIdentifier (n : Name)
  | notInteger (n : Name)
  | sameValue (n : Name)
  | negativeBit (n : Name)
  deriving DecidableEq, Repr

/-- Whether the status of the module is set to `MOD_ERROR` as well. -/
def Report.setsError : Report → Bool
  | .multiplyDefined _ | .choiceConflict | .setConflict | .seqConflict => true
  | .sameIdentifier _ | .notInteger _ | .sameValue _ | .negativeBit _ => false

/-- The status that is left. -/
def leavesError (rs : List Report) : Bool := rs.any Report.setsError

/-- `ObjIsDefined` with the comparison of names and of numbers. -/
def objIsDefined {α : Type} [DecidableEq α] (objs : List α) (obj : α) : Bool :=
  objs.any fun o => o = obj

/-- The loop of `ChkNamedNumbers`, with the identifiers and the numbers seen so far. -/
def chkNamedNumbersFrom : List Name → List ℤ → List NamedNumber → List Report
  | _, _, [] => []
  | ids, nums, nn :: ns =>
      let idDefined := objIsDefined ids nn.definedName
      let idReports := if idDefined then [.sameIdentifier nn.definedName] else []
      let ids := if idDefined then ids else nn.definedName :: ids
      match nn.value with
      | none => idReports ++ .notInteger nn.definedName :: chkNamedNumbersFrom ids nums ns
      | some v =>
          if objIsDefined nums v then
            idReports ++ .sameValue nn.definedName :: chkNamedNumbersFrom ids nums ns
          else idReports ++ chkNamedNumbersFrom ids (v :: nums) ns

def chkNamedNumbers (n : List NamedNumber) : List Report := chkNamedNumbersFrom [] [] n

def chkNamedBits (n : List NamedNumber) : List Report :=
  chkNamedNumbers n ++
    (n.filter fun vd => vd.value.any (· < 0)).map fun vd => .negativeBit vd.definedName

namespace CheckedModule

variable {ι κ : Type} (m : CheckedModule ι κ)

def hasDistinctTags (fuel : ℕ) (elmts : List ι) : Option Bool :=
  (Walk.forEach (m.graph.addFirstTag fuel) elmts []).map fun r =>
    match r with
    | .ok _ => true
    | .error _ => false

/-- The loop of `ChkSeqTags`, with the tags of the optional elements that come one after the
other. -/
def chkSeqTags (fuel : ℕ) : List Tag → List ι → Option (List Report)
  | _, [] => some []
  | dO, e :: es =>
      if m.optional e then
        match m.graph.addFirstTag fuel dO e with
        | none => none
        | some (.ok dO) => chkSeqTags fuel dO es
        | some (.error dO) => (chkSeqTags fuel dO es).map fun rs => .seqConflict :: rs
      else if dO ≠ [] then
        match m.graph.addFirstTag fuel dO e with
        | none => none
        | some (.ok _) => chkSeqTags fuel [] es
        | some (.error _) => (chkSeqTags fuel [] es).map fun rs => .seqConflict :: rs
      else chkSeqTags fuel dO es

/-- `ErrChkElmtTypes` without the warnings about field names. -/
def errChkElmtTypes (errChkType : ι → Option (List Report)) : List ι → Option (List Report)
  | [] => some []
  | e :: es => do
      let rs ← errChkType e
      let rs' ← errChkElmtTypes errChkType es
      return rs ++ rs'

/-- `ErrChkType` with `ErrChkBasicType`. -/
def errChkType : ℕ → ι → Option (List Report)
  | 0, _ => none
  | fuel + 1, t =>
      match m.content t with
      | .namedNumbers n => some (chkNamedNumbers n)
      | .namedBits n => some (chkNamedBits n)
      | .listOf elmt => errChkType fuel elmt
      | .sequence elmts => do
          let rs ← errChkElmtTypes (errChkType fuel) elmts
          let rs' ← m.chkSeqTags fuel [] elmts
          return rs ++ rs'
      | .objectClass classdef => errChkElmtTypes (errChkType fuel) classdef
      | .choice elmts => do
          let distinct ← m.hasDistinctTags fuel elmts
          let rs ← errChkElmtTypes (errChkType fuel) elmts
          return if distinct then rs else .choiceConflict :: rs
      | .set elmts => do
          let distinct ← m.hasDistinctTags fuel elmts
          let rs ← errChkElmtTypes (errChkType fuel) elmts
          return if distinct then rs else .setConflict :: rs
      | .other => some []

/-- What is printed for a module; that names and types are checked in turn is left out. -/
def errChkModule (fuel : ℕ) : Option (List Report) :=
  (errChkElmtTypes (m.errChkType fuel) m.types).map fun rs =>
    (errChkNames m.names).map .multiplyDefined ++ rs

/-! ### The rules -/

/-- The tag is one of those a value of the type can start with, references and untagged
CHOICEs followed. -/
inductive Leads : ι → Tag → Prop
  | tag {t : ι} {tag : Tag} (h : m.graph.HasFront t (.tag tag)) : Leads t tag
  | choice {t e : ι} {elmts : List ι} {tag : Tag} (h : m.graph.HasFront t (.choice elmts))
      (he : e ∈ elmts) (htag : Leads e tag) : Leads t tag

/-- The two types have no leading tag in common, tags being compared as given. -/
def Apart (same : Tag → Tag → Bool) (a b : ι) : Prop :=
  ∀ x y, m.Leads a x → m.Leads b y → same x y = false

/-- Every run of optional elements and the element after it are apart; `run` is what there
is of the first run. -/
def RunsApart (same : Tag → Tag → Bool) : List ι → List ι → Prop
  | _, [] => True
  | run, e :: es => (∀ a ∈ run, m.Apart same a e) ∧
      RunsApart same (if m.optional e then run ++ [e] else []) es

/-- The type is part of a definition of the module. -/
def Inside (t : ι) : Prop :=
  ∃ d ∈ m.types, Relation.ReflTransGen (fun u e => e ∈ (m.content u).elmts) d t

/-- Two tags are the same. -/
def sameTag (t₁ t₂ : Tag) : Bool := t₁.tclass = t₂.tclass ∧ t₁.code = t₂.code

structure TagRules : Prop where
  choice : ∀ t elmts, m.Inside t → m.content t = .choice elmts → elmts.Pairwise (m.Apart sameTag)
  set : ∀ t elmts, m.Inside t → m.content t = .set elmts → elmts.Pairwise (m.Apart sameTag)
  sequence : ∀ t elmts, m.Inside t → m.content t = .sequence elmts → m.RunsApart sameTag [] elmts

/-- Identifiers and values of named numbers and bits are distinct. -/
def NumberRules : Prop :=
  ∀ t n, m.Inside t → m.content t = .namedNumbers n ∨ m.content t = .namedBits n →
    (n.map NamedNumber.definedName).Nodup ∧ (n.filterMap NamedNumber.value).Nodup

def NameRules : Prop := (typeNames m.names).Nodup ∧ (valueNames m.names).Nodup

structure Rules : Prop where
  names : m.NameRules
  tags : m.TagRules
  numbers : m.NumberRules

/-! ### What is recorded -/

/-- The alternatives of the untagged CHOICEs that are followed are apart as well. -/
inductive Separate : ι → Prop
  | tag {t : ι} {tag : Tag} (h : m.graph.HasFront t (.tag tag)) : Separate t
  | bare {t : ι} (h : m.graph.HasFront t .bare) : Separate t
  | choice {t : ι} {elmts : List ι} (h : m.graph.HasFront t (.choice elmts))
      (hapart : elmts.Pairwise (m.Apart tagObjCmp)) (hall : ∀ e ∈ elmts, Separate e) : Separate t

def AllSeparate (elmts : List ι) : Prop :=
  elmts.Pairwise (m.Apart tagObjCmp) ∧ ∀ e ∈ elmts, m.Separate e

/-- As for `RunsApart`; an element that is not optional is looked into only behind optional
elements with a tag. -/
def RunsSeparate : List ι → List ι → Prop
  | _, [] => True
  | run, e :: es => (∀ a ∈ run, m.Apart tagObjCmp a e) ∧
      (m.optional e = true ∨ (∃ a ∈ run, ∃ x, m.Leads a x) → m.Separate e) ∧
      RunsSeparate (if m.optional e then run ++ [e] else []) es

/-- Tags are apart as `TagObjCmp` compares them. -/
structure TagsSeparate : Prop where
  choice : ∀ t elmts, m.Inside t → m.content t = .choice elmts → m.AllSeparate elmts
  set : ∀ t elmts, m.Inside t → m.content t = .set elmts → m.AllSeparate elmts
  sequence : ∀ t elmts, m.Inside t → m.content t = .sequence elmts → m.RunsSeparate [] elmts

/-- When the status says what it should: names clash, or else tags clash as they are compared
if and only if tags or named numbers do. -/
def Faithful : Prop := m.NameRules → (m.TagsSeparate ↔ m.TagRules ∧ m.NumberRules)

end CheckedModule

end Esnacc.Compiler
