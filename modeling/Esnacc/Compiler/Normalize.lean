import Esnacc.Compiler.WalkTermination
import Esnacc.Lib.Transition

/-!
What `NormalizeModule` does to the tags of types: inline definitions are moved to type
definitions of their own, selection types are replaced by what they select, and references
are marked implicit or not. These happen one after the other to types that refer to each
other; in which order depends on the modules. A run is any sequence of such steps that comes
to every reference.
-/

namespace Esnacc.Compiler.Normalize

variable {ι : Type}

/-- A tag of a tag list with its flag `_explicit`. -/
structure OwnTag where
  tag : Tag
  isExplicit : Bool
  deriving DecidableEq, Repr

/-- What normalisation looks at in a type: a reference with the type of the definition, a
selection with the type of the alternative, an inline CHOICE, another type that is moved to a
definition of its own, with its universal tag, or a type that stays as it is. -/
inductive Body (ι : Type)
  | typeRef (link : ι)
  | selection (link : ι)
  | choice (elmts : List ι)
  | constructed (univTagCode : ℤ)
  | other
  deriving DecidableEq, Repr

structure TypeState (ι : Type) where
  tags : List OwnTag
  isImplicit : Bool
  body : Body ι
  deriving DecidableEq, Repr

/-- The types that there are, and what they are at the moment. -/
structure Types (ι : Type) where
  type : ι → TypeState ι
  used : Set ι

/-- The last tag of the list is not explicit. -/
def lastImplicit (tags : List OwnTag) : Bool := tags.getLast?.any fun tag => !tag.isExplicit

namespace Types

/-- A selection is nothing that `GetTags` follows. -/
def basicType : Body ι → BasicType ι
  | .typeRef link => .typeRef (some link)
  | .choice elmts => .choice elmts
  | .selection _ | .constructed _ | .other => .other

/-- The types as `GetTags` and `CountTags` see them. -/
def graph (s : Types ι) : TypeGraph ι Unit where
  type t := ⟨(s.type t).tags.map OwnTag.tag, (s.type t).isImplicit, basicType (s.type t).body⟩
  value _ := .other

variable [DecidableEq ι] (s : Types ι)

def update (t : ι) (ts : TypeState ι) : Types ι :=
  { s with type := Function.update s.type t ts }

/-- The tag list has the universal tag at its end. -/
def endsWith (tags : List OwnTag) (code : ℤ) : Bool :=
  tags.getLast?.any fun last => last.tag.tclass = .univ ∧ last.tag.code = code

/-- `AddConsTypeDef`; `d` is the type of the new definition. -/
def addConsTypeDef (t d : ι) : Types ι :=
  let old := s.type t
  match old.body with
  | .constructed code =>
      let newDef : TypeState ι := ⟨[⟨⟨.univ, code, none⟩, false⟩], false, old.body⟩
      let newRef : TypeState ι :=
        if endsWith old.tags code then ⟨old.tags.dropLast, false, .typeRef d⟩
        else if old.tags ≠ [] then ⟨old.tags, true, .typeRef d⟩
        else ⟨old.tags, old.isImplicit, .typeRef d⟩
      { (s.update d newDef).update t newRef with used := insert d s.used }
  | _ =>
      { (s.update d ⟨[], false, old.body⟩).update t ⟨old.tags, old.isImplicit, .typeRef d⟩ with
        used := insert d s.used }

/-- The tags that a selection takes over, in a module with the given tag default. -/
def selectedTags (implicitTags isImplicit : Bool) (tags : List OwnTag) : List OwnTag :=
  if implicitTags || isImplicit then tags.tail else tags

/-- A selection is replaced by the selected type. -/
def select (implicitTags : Bool) (t link : ι) : Types ι :=
  let old := s.type t
  let alt := s.type link
  s.update t
    { tags := old.tags ++ selectedTags implicitTags old.isImplicit alt.tags
      isImplicit := alt.isImplicit || (alt.tags = [] && old.isImplicit)
      body := alt.body }

/-- A reference is marked implicit. -/
def mark (t : ι) : Types ι := s.update t { s.type t with isImplicit := true }

end Types

/-- The steps of normalisation, with the tag default of the module that is normalised. -/
inductive Action (ι : Type)
  | addConsTypeDef (t d : ι)
  | select (implicitTags : Bool) (t link : ι)
  | reference (implicitTags : Bool) (t link : ι)
  deriving DecidableEq, Repr

/-- A step that normalisation can make. -/
inductive Step [DecidableEq ι] (s : Types ι) : Action ι → Types ι → Prop
  | addConsTypeDef {t d : ι} (ht : t ∈ s.used) (hd : d ∉ s.used)
      (hbody : (∃ elmts, (s.type t).body = .choice elmts) ∨
        ∃ code, (s.type t).body = .constructed code) :
      Step s (.addConsTypeDef t d) (s.addConsTypeDef t d)
  | select {implicitTags : Bool} {t link : ι} (ht : t ∈ s.used)
      (hbody : (s.type t).body = .selection link) :
      Step s (.select implicitTags t link) (s.select implicitTags t link)
  | mark {implicitTags : Bool} {t link : ι} (ht : t ∈ s.used)
      (hbody : (s.type t).body = .typeRef link) (hdefault : implicitTags = true)
      (hlast : lastImplicit (s.type t).tags = true)
      (hcount : ∃ n k, s.graph.countTags n link = some k ∧ k ≠ 0) :
      Step s (.reference implicitTags t link) (s.mark t)
  | leave {implicitTags : Bool} {t link : ι} (ht : t ∈ s.used)
      (hbody : (s.type t).body = .typeRef link)
      (hleave : implicitTags = true → lastImplicit (s.type t).tags = true →
        ∃ n, s.graph.countTags n link = some 0) :
      Step s (.reference implicitTags t link) s

/-- `NormalizeType` has come to every type, and every selection is replaced. -/
structure Finished (trace : List (Action ι)) (s : Types ι) : Prop where
  selections : ∀ t ∈ s.used, ∀ u, (s.type t).body ≠ .selection u
  references : ∀ t ∈ s.used, ∀ u, (s.type t).body = .typeRef u →
    ∃ implicitTags, Action.reference implicitTags t u ∈ trace

/-! ### What the tags mean before they are normalised -/

namespace Types

/-- What a reference or a selection leads to. -/
def target : Body ι → Option ι
  | .typeRef link | .selection link => some link
  | .choice _ | .constructed _ | .other => none

/-- The type has tags, itself or behind references. -/
inductive HasTags (s : Types ι) : ι → Prop
  | own {t : ι} (h : (s.type t).tags ≠ []) : HasTags s t
  | link {t u : ι} (h : target (s.type t).body = some u) (hu : HasTags s u) : HasTags s t

/-- The last tag of a reference or selection replaces the first tag behind it, because it
says so or because of the tag default of the module the type is in. -/
def Replaces (implicitTags : ι → Bool) (s : Types ι) (t : ι) : Prop :=
  (s.type t).isImplicit = true ∨ implicitTags t = true ∧ lastImplicit (s.type t).tags = true ∧
    ∃ u, target (s.type t).body = some u ∧ s.HasTags u

open Classical in
/-- The types as they are meant: a selection is a reference to what it selects, and the
references are implicit that are to be. -/
noncomputable def meaning (implicitTags : ι → Bool) (s : Types ι) : TypeGraph ι Unit where
  type t :=
    { tags := (s.type t).tags.map OwnTag.tag
      isImplicit := decide (s.Replaces implicitTags t)
      basicType :=
        match target (s.type t).body with
        | some u => .typeRef (some u)
        | none => basicType (s.type t).body }
  value _ := .other

/-- `GetTags` returns these tags. -/
def Computes {κ : Type} (g : TypeGraph ι κ) (t : ι) (r : List Tag × Bool) : Prop :=
  ∃ n, g.getTags n t = some (.ok r)

/-- All types are linked, and what the parser leaves as implicit has a tag. -/
structure Linked (s : Types ι) : Prop where
  target : ∀ t ∈ s.used, ∀ u, target (s.type t).body = some u → u ∈ s.used
  choice : ∀ t ∈ s.used, ∀ elmts, (s.type t).body = .choice elmts → ∀ e ∈ elmts, e ∈ s.used
  implicitTagged : ∀ t ∈ s.used, (s.type t).isImplicit = true → (s.type t).tags ≠ []

end Types

/-- When a step keeps the tags. -/
def Keeps (implicitTags : ι → Bool) (s : Types ι) : Action ι → Prop
  /- The parser leaves a universal tag only behind an explicit tag where the default is
  IMPLICIT TAGS, and every type but a CHOICE with a tag. -/
  | .addConsTypeDef t _ => ∀ code, (s.type t).body = .constructed code →
      (s.type t).tags ≠ [] ∧ (Types.endsWith (s.type t).tags code = true →
        ((s.type t).tags.getLast?.any fun last => last.tag.valueRef = none) ∧
          (implicitTags t = true → lastImplicit (s.type t).tags.dropLast = false))
  | .select default t link => t ≠ link ∧ ((s.type link).tags ≠ [] →
      ((default = true ∨ (s.type t).isImplicit = true) ↔ s.Replaces implicitTags t) ∧
      ((s.type link).isImplicit = false →
        (∃ u, Types.target (s.type link).body = some u ∧ s.HasTags u) →
        (implicitTags t = true ∧ lastImplicit ((s.type t).tags ++
            Types.selectedTags default (s.type t).isImplicit (s.type link).tags) = true ↔
          implicitTags link = true ∧ lastImplicit (s.type link).tags = true)))
  | .reference default t link => (s.type t).isImplicit = false →
      lastImplicit (s.type t).tags = true → s.HasTags link →
        (implicitTags t = true ↔ default = true ∧ ∃ n k, s.graph.countTags n link = some k ∧ k ≠ 0)

end Esnacc.Compiler.Normalize
