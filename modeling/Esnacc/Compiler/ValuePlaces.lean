import Esnacc.Compiler.ValueRefs

/-!
Which references the linker reaches, and where it looks for them. Every place in the syntax where a
reference can stand has a governing type; the named elements that are looked through are those of
the type the walk comes from, which is not always the same one.
-/

namespace Esnacc.Compiler.Values

/-! ### Where references stand -/

mutual

/-- The named elements of the type itself, where a selection is the type that it selects. -/
def BasicType.governing : BasicType → List NamedElmt
  | .named elmts => elmts
  | .typeRef _ governing | .selection governing _ => governing
  | .elmts true elmts => governingOf elmts
  | .elmts false _ | .setOf _ | .containing _ | .componentsOf _ | .macroType _ _ | .other => []

def governingOf : List AsnType → List NamedElmt
  | [] => []
  | .mk _ basicType _ _ :: types => basicType.governing ++ governingOf types

end

def AsnType.governing : AsnType → List NamedElmt
  | .mk _ basicType _ _ => basicType.governing

/-- A reference where it stands: the named elements of the governing type, those that the walk comes
with, and whether it is in a type that the walk does not go into: what an OCTET STRING or a BIT
STRING contains, and the types behind COMPONENTS OF and selections. -/
structure Place where
  ref : ValueRef
  governing : List NamedElmt
  searched : List NamedElmt
  skipped : Bool

def oidPlaces (skipped : Bool) (oid : List (Option ValueRef)) : List Place :=
  (oid.filterMap id).map fun ref => ⟨ref, [], [], skipped⟩

def BasicValue.places (governing searched : List NamedElmt) (skipped : Bool) :
    BasicValue → List Place
  | .valueRef ref => [⟨ref, governing, searched, skipped⟩]
  | .linkedOid oid => oidPlaces skipped oid
  | .other => []

def optionalPlaces (governing searched : List NamedElmt) (skipped : Bool) :
    Option BasicValue → List Place
  | some value => value.places governing searched skipped
  | none => []

mutual

/-- The number of a tag is an INTEGER without named numbers. -/
def AsnType.places (skipped : Bool) : AsnType → List Place
  | .mk tags basicType subtypes defaultVal =>
      tags.flatMap (optionalPlaces [] basicType.getAllNamedElmts skipped) ++
        basicType.places skipped ++
        subtypes.places basicType.governing basicType.getAllNamedElmts skipped ++
        optionalPlaces basicType.governing basicType.getAllNamedElmts skipped defaultVal

def BasicType.places (skipped : Bool) : BasicType → List Place
  | .elmts _ elmts => typePlaces skipped elmts
  | .setOf elmt => elmt.places skipped
  | .named elmts => elmts.flatMap fun e => e.value.places [] [] skipped
  | .containing type | .componentsOf type | .selection _ type => type.places true
  | .macroType types values =>
      typePlaces skipped types ++ values.flatMap (BasicValue.places [] [] skipped)
  | .typeRef _ _ | .other => []

def typePlaces (skipped : Bool) : List AsnType → List Place
  | [] => []
  | type :: types => type.places skipped ++ typePlaces skipped types

def Subtype.places (governing searched : List NamedElmt) (skipped : Bool) :
    Subtype → List Place
  | .null => []
  | .single value => value.places governing searched skipped
  | .compound elmts => subtypePlaces governing searched skipped elmts

def subtypePlaces (governing searched : List NamedElmt) (skipped : Bool) :
    List Subtype → List Place
  | [] => []
  | s :: ss => s.places governing searched skipped ++
      subtypePlaces governing searched skipped ss

/-- A size is an INTEGER without named numbers, and an inner subtype is one of a component. -/
def SubtypeValue.places (governing searched : List NamedElmt) (skipped : Bool) :
    SubtypeValue → List Place
  | .singleValue value => value.places governing searched skipped
  | .contained type => type.places skipped
  | .valueRange lower upper =>
      lower.places governing searched skipped ++ upper.places governing searched skipped
  | .permittedAlphabet subtype => subtype.places governing searched skipped
  | .sizeConstraint subtype => subtype.places [] searched skipped
  | .innerSubtype constraints => constraintPlaces searched skipped constraints

def constraintPlaces (searched : List NamedElmt) (skipped : Bool) :
    List Constraint → List Place
  | [] => []
  | .mk namedElmts valueConstraints :: cs =>
      valueConstraints.places namedElmts searched skipped ++
        constraintPlaces searched skipped cs

end

def ValueDef.places (v : ValueDef) : List Place :=
  v.type.places false ++ v.value.places v.type.governing v.type.getAllNamedElmts false

def Module.places (m : Module) : List Place :=
  oidPlaces false m.oid ++ m.typeDefs.flatMap (AsnType.places false) ++
    m.valueDefs.flatMap ValueDef.places

/-! ### What references stand for -/

/-- The import list without the elements of qualified references. -/
def publicElmts (imp : ImportModule) : ImportModule :=
  { imp with importElmts := imp.importElmts.filter fun e => !e.privateScope }

/-- A named number of the governing type, else a value of the module, else an imported one; what
`modname.value` names is imported from that module. -/
def target (ms : List Module) (m : Module) (p : Place) : Option Target :=
  match p.ref.moduleName with
  | none =>
      match lookupNamedElmt p.governing p.ref.valueName with
      | some e => some (.namedElmt e)
      | none =>
          match lookupValue m.valueDefs p.ref.valueName with
          | some _ => some (.value m.modId p.ref.valueName)
          | none =>
              match lookupImportElmt p.ref.valueName (m.imports.map publicElmts) with
              | some (imp, _) => resolvedRef ms imp p.ref.valueName
              | none => none
  | some moduleName =>
      match m.imports.find? fun imp => imp.modId.name = moduleName with
      | none => none
      | some imp =>
          match lookupImportElmtInImportElmtList imp.importElmts p.ref.valueName with
          | none => none
          | some _ => resolvedRef ms imp p.ref.valueName

/-- With the result 0 every reference is linked to what it stands for, and one that stands for
nothing makes the result negative. -/
structure LinksValues (ms : List Module) : Prop where
  linked : (linkValueRefs ms).1 = 0 → ∀ m ∈ ms, ∀ p ∈ m.places,
    ∃ t, target ms m p = some t ∧ linkOf (linkValueRefs ms).2 p.ref = some t
  rejected : (∃ m ∈ ms, ∃ p ∈ m.places, target ms m p = none) → (linkValueRefs ms).1 < 0

/-! ### When it does -/

/-- The import list through which a reference goes. -/
def importedThrough (m : Module) (p : Place) : Option ImportModule :=
  match p.ref.moduleName with
  | none =>
      if (lookupNamedElmt p.searched p.ref.valueName).isSome ∨
          (lookupValue m.valueDefs p.ref.valueName).isSome then none
      else (lookupImportElmt p.ref.valueName m.imports).map Prod.fst
  | some moduleName => m.imports.find? fun imp => imp.modId.name = moduleName

/-- Nothing has the name of the reference: not even an import list. -/
def Undefined (m : Module) (p : Place) : Prop :=
  match p.ref.moduleName with
  | none => lookupNamedElmt p.searched p.ref.valueName = none ∧
      lookupValue m.valueDefs p.ref.valueName = none ∧
      ∀ imp e, lookupImportElmt p.ref.valueName m.imports = some (imp, e) → e.privateScope = true
  | some moduleName => ∀ imp, m.imports.find? (fun imp => imp.modId.name = moduleName) = some imp →
      lookupImportElmtInImportElmtList imp.importElmts p.ref.valueName = none

/-- A module is in error before, its imports are, or a reference the walk visits is
undefined. -/
def Erroneous (ms : List Module) : Prop :=
  ∃ m ∈ ms, m.failed = true ∨ valueLinkImportLists ms m = true ∨
    ∃ p ∈ m.places, p.skipped = false ∧ Undefined m p

/-- A reference that the linker reaches, with the right named elements, and whose module is there
if it is imported. -/
structure Reached (ms : List Module) (m : Module) (p : Place) : Prop where
  visited : p.skipped = false
  governed : p.ref.moduleName = none →
    lookupNamedElmt p.searched p.ref.valueName = lookupNamedElmt p.governing p.ref.valueName
  present : ∀ imp, importedThrough m p = some imp → (lookupModule ms imp.modId).isSome = true

/-! ### The walk -/

section Walk

variable (link : List NamedElmt → ValueRef → Outcome)

/-- What becomes of the references that are visited. -/
def outcomes (ps : List Place) : List Outcome :=
  (ps.filter fun p => !p.skipped).map fun p => link p.searched p.ref

theorem outcomes_append (ps qs : List Place) :
    outcomes link (ps ++ qs) = outcomes link ps ++ outcomes link qs := by
  rw [outcomes, List.filter_append, List.map_append]
  rfl

theorem outcomes_flatMap {β : Type} {places : β → List Place} {visit : β → List Outcome}
    {skipped : Bool} (h : ∀ x, outcomes link (places x) = bif skipped then [] else visit x)
    (xs : List β) :
    outcomes link (xs.flatMap places) = bif skipped then [] else xs.flatMap visit := by
  induction xs with
  | nil => cases skipped <;> rfl
  | cons x xs ih =>
      rw [List.flatMap_cons, outcomes_append, h, ih, List.flatMap_cons]
      cases skipped <;> rfl

theorem outcomes_oid (skipped : Bool) (oid : List (Option ValueRef)) :
    outcomes link (oidPlaces skipped oid) =
      bif skipped then [] else valueLinkOid link oid := by
  cases skipped with
  | true => simp [outcomes, oidPlaces]
  | false =>
      simp only [outcomes, oidPlaces, valueLinkOid, List.filter_map, List.map_map]
      simp [Function.comp_def]

theorem outcomes_value (governing searched : List NamedElmt) (skipped : Bool) (v : BasicValue) :
    outcomes link (v.places governing searched skipped) =
      bif skipped then [] else valueLinkValue link searched v := by
  cases v with
  | valueRef ref => cases skipped <;> rfl
  | linkedOid oid => exact outcomes_oid link skipped oid
  | other => cases skipped <;> rfl

theorem outcomes_optional (governing searched : List NamedElmt) (skipped : Bool)
    (v : Option BasicValue) :
    outcomes link (optionalPlaces governing searched skipped v) =
      bif skipped then [] else valueLinkOptional link searched v := by
  cases v with
  | none => cases skipped <;> rfl
  | some v => exact outcomes_value link governing searched skipped v

mutual

/-- The walk over a type visits the references that are not in skipped types, in their order. -/
theorem outcomes_type (skipped : Bool) : ∀ t : AsnType,
    outcomes link (t.places skipped) = bif skipped then [] else valueLinkType link t
  | .mk tags basicType subtypes defaultVal => by
      rw [AsnType.places, outcomes_append, outcomes_append, outcomes_append,
        outcomes_flatMap link (outcomes_optional link [] basicType.getAllNamedElmts skipped) tags,
        outcomes_basicType skipped basicType, outcomes_subtype _ _ skipped subtypes,
        outcomes_optional, valueLinkType]
      cases skipped <;> rfl

theorem outcomes_basicType (skipped : Bool) : ∀ t : BasicType,
    outcomes link (t.places skipped) = bif skipped then [] else valueLinkBasicType link t
  | .elmts _ elmts => by
      rw [BasicType.places, outcomes_types skipped elmts, valueLinkBasicType]
  | .setOf elmt => by
      rw [BasicType.places, outcomes_type skipped elmt, valueLinkBasicType]
  | .named elmts => by
      rw [BasicType.places, valueLinkBasicType]
      exact outcomes_flatMap link (fun e => outcomes_value link [] [] skipped e.value) elmts
  | .containing type => by
      -- everything in it is skipped, and the walk does nothing here
      rw [BasicType.places, outcomes_type true type, valueLinkBasicType]
      cases skipped <;> rfl
  | .componentsOf type => by
      rw [BasicType.places, outcomes_type true type, valueLinkBasicType]
      cases skipped <;> rfl
  | .selection _ type => by
      rw [BasicType.places, outcomes_type true type, valueLinkBasicType]
      cases skipped <;> rfl
  | .macroType types values => by
      rw [BasicType.places, outcomes_append, outcomes_types skipped types,
        outcomes_flatMap link (outcomes_value link [] [] skipped) values, valueLinkBasicType]
      cases skipped <;> rfl
  | .typeRef _ _ => by
      cases skipped <;> rfl
  | .other => by
      cases skipped <;> rfl

theorem outcomes_types (skipped : Bool) : ∀ ts : List AsnType,
    outcomes link (typePlaces skipped ts) = bif skipped then [] else valueLinkElmtTypes link ts
  | [] => by
      cases skipped <;> rfl
  | t :: ts => by
      rw [typePlaces, outcomes_append, outcomes_type skipped t, outcomes_types skipped ts,
        valueLinkElmtTypes]
      cases skipped <;> rfl

theorem outcomes_subtype (governing searched : List NamedElmt) (skipped : Bool) :
    ∀ s : Subtype, outcomes link (s.places governing searched skipped) =
      bif skipped then [] else valueLinkSubtypes link searched s
  | .null => by
      cases skipped <;> rfl
  | .single value => by
      rw [Subtype.places, outcomes_subtypeValue governing searched skipped value,
        valueLinkSubtypes]
  | .compound elmts => by
      rw [Subtype.places, outcomes_subtypes governing searched skipped elmts, valueLinkSubtypes]

theorem outcomes_subtypes (governing searched : List NamedElmt) (skipped : Bool) :
    ∀ ss : List Subtype, outcomes link (subtypePlaces governing searched skipped ss) =
      bif skipped then [] else valueLinkSubtypeList link searched ss
  | [] => by
      cases skipped <;> rfl
  | s :: ss => by
      rw [subtypePlaces, outcomes_append, outcomes_subtype governing searched skipped s,
        outcomes_subtypes governing searched skipped ss, valueLinkSubtypeList]
      cases skipped <;> rfl

theorem outcomes_subtypeValue (governing searched : List NamedElmt) (skipped : Bool) :
    ∀ s : SubtypeValue, outcomes link (s.places governing searched skipped) =
      bif skipped then [] else valueLinkSubtypeValue link searched s
  | .singleValue value => by
      rw [SubtypeValue.places, outcomes_value, valueLinkSubtypeValue]
  | .contained type => by
      rw [SubtypeValue.places, outcomes_type skipped type, valueLinkSubtypeValue]
  | .valueRange lower upper => by
      rw [SubtypeValue.places, outcomes_append, outcomes_value, outcomes_value,
        valueLinkSubtypeValue]
      cases skipped <;> rfl
  | .permittedAlphabet subtype => by
      rw [SubtypeValue.places, outcomes_subtype governing searched skipped subtype,
        valueLinkSubtypeValue]
  | .sizeConstraint subtype => by
      rw [SubtypeValue.places, outcomes_subtype [] searched skipped subtype,
        valueLinkSubtypeValue]
  | .innerSubtype constraints => by
      rw [SubtypeValue.places, outcomes_constraints searched skipped constraints,
        valueLinkSubtypeValue]

theorem outcomes_constraints (searched : List NamedElmt) (skipped : Bool) :
    ∀ cs : List Constraint, outcomes link (constraintPlaces searched skipped cs) =
      bif skipped then [] else valueLinkConstraints link searched cs
  | [] => by
      cases skipped <;> rfl
  | .mk namedElmts valueConstraints :: cs => by
      rw [constraintPlaces, outcomes_append,
        outcomes_subtype namedElmts searched skipped valueConstraints,
        outcomes_constraints searched skipped cs, valueLinkConstraints]
      cases skipped <;> rfl

end

end Walk

end Esnacc.Compiler.Values
