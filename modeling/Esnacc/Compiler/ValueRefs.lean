import Esnacc.Compiler.Imports

/-!
References to values and how they are linked. The parser leaves a reference by its name. The
linker looks for it among the named elements of the type that the value belongs to, then among
the values of the module and then in its import lists.
-/

namespace Esnacc.Compiler.Values

/-! ### Types and values -/

/-- A reference to a value. Each is an object of its own, told apart by `id`; there is a
`moduleName` for `modname.value`. -/
structure ValueRef where
  id : ℕ
  moduleName : Option Name
  valueName : Name
  deriving DecidableEq, Repr

/-- A value; of an OBJECT IDENTIFIER the components, some of which are references. -/
inductive BasicValue
  | valueRef (ref : ValueRef)
  | linkedOid (oid : List (Option ValueRef))
  | other
  deriving DecidableEq, Repr

/-- A named number or a named bit. Its value has no type. -/
structure NamedElmt where
  definedName : Name
  value : BasicValue
  deriving DecidableEq, Repr

mutual

/-- A tag has a value if its number is not given. -/
inductive AsnType
  | mk (tags : List (Option BasicValue)) (basicType : BasicType) (subtypes : Subtype)
      (defaultVal : Option BasicValue)

/-- `elmts` are those of SEQUENCE, SET, CHOICE and object classes, `setOf` is SEQUENCE OF too,
`named` are INTEGER, BIT STRING and ENUMERATED, and `containing` is an OCTET STRING or a BIT STRING.
For a reference to a type there are the named elements that are found behind it, and those of the
type it stands for; the same for a selection, where nothing is found. For a macro there are the
types and the values it is made of. -/
inductive BasicType
  | elmts (isChoice : Bool) (elmts : List AsnType)
  | setOf (elmt : AsnType)
  | named (elmts : List NamedElmt)
  | containing (stringContaining : AsnType)
  | componentsOf (type : AsnType)
  | selection (governing : List NamedElmt) (typeRef : AsnType)
  | typeRef (namedElmts governing : List NamedElmt)
  | macroType (types : List AsnType) (values : List BasicValue)
  | other

/-- `compound` is an AND, an OR or a NOT. -/
inductive Subtype
  | null
  | single (value : SubtypeValue)
  | compound (elmts : List Subtype)

inductive SubtypeValue
  | singleValue (value : BasicValue)
  | contained (type : AsnType)
  | valueRange (lower upper : BasicValue)
  | permittedAlphabet (subtype : Subtype)
  | sizeConstraint (subtype : Subtype)
  | innerSubtype (constraints : List Constraint)

/-- What is demanded of a component. The named elements are those of its type, which the linker
does not look up. -/
inductive Constraint
  | mk (namedElmts : List NamedElmt) (valueConstraints : Subtype)

end

mutual

def BasicType.getAllNamedElmts : BasicType → List NamedElmt
  | .named elmts => elmts
  | .typeRef namedElmts _ => namedElmts
  | .elmts true elmts => getAllNamedElmtsOf elmts
  | .elmts false _ | .setOf _ | .containing _ | .componentsOf _ | .selection _ _ | .macroType _ _
  | .other => []

/-- Those of the components of a CHOICE. -/
def getAllNamedElmtsOf : List AsnType → List NamedElmt
  | [] => []
  | .mk _ basicType _ _ :: types => basicType.getAllNamedElmts ++ getAllNamedElmtsOf types

end

def AsnType.getAllNamedElmts : AsnType → List NamedElmt
  | .mk _ basicType _ _ => basicType.getAllNamedElmts

structure ValueDef where
  definedName : Name
  exported : Bool
  type : AsnType
  value : BasicValue

/-- A module; `oid` are the components of its identifier, and `failed` is `MOD_ERROR`. -/
structure Module where
  modId : ModuleId
  oid : List (Option ValueRef)
  failed : Bool
  typeDefs : List AsnType
  valueDefs : List ValueDef
  imports : List ImportModule

/-! ### Looking up -/

/-- What a reference can be linked to: a named element, or a value of a module. -/
inductive Target
  | namedElmt (e : NamedElmt)
  | value (modId : ModuleId) (definedName : Name)
  deriving DecidableEq, Repr

def lookupNamedElmt (namedElmts : List NamedElmt) (n : Name) : Option NamedElmt :=
  namedElmts.find? fun e => e.definedName = n

def lookupValue (valueDefs : List ValueDef) (n : Name) : Option ValueDef :=
  valueDefs.find? fun v => v.definedName = n

/-- Either the OID or the name has to match. -/
def lookupModule (ms : List Module) (modId : ModuleId) : Option Module :=
  ms.find? fun m => compareOids modId.oid m.modId.oid || m.modId.name = modId.name

/-- `resolvedRef` of the element `n` in the import list `imp`. -/
def resolvedRef (ms : List Module) (imp : ImportModule) (n : Name) : Option Target :=
  match lookupModule ms imp.modId with
  | none => none
  | some impRefMod =>
      if n.isValue then (lookupValue impRefMod.valueDefs n).map fun _ => .value impRefMod.modId n
      else none

/-- Whether `ValueLinkImportLists` reports an error for the module. A list from a module that is
not there is passed over. -/
def valueLinkImportLists (ms : List Module) (m : Module) : Bool :=
  m.imports.any fun imp =>
    match lookupModule ms imp.modId with
    | none => false
    | some impRefMod => imp.importElmts.any fun e =>
        e.name.isValue && !(lookupValue impRefMod.valueDefs e.name).any ValueDef.exported

/-! ### Linking -/

/-- What becomes of a reference; `error` is set where the module gets `MOD_ERROR`. -/
structure Outcome where
  ref : ValueRef
  link : Option Target
  error : Bool
  deriving DecidableEq, Repr

/-- The branches of `ValueLinkBasicValue` for references. An import element that is not resolved
is reported, but it is no error of the module. -/
def linkValueRef (ms : List Module) (m : Module) (namedElmts : List NamedElmt) (r : ValueRef) :
    Outcome :=
  match r.moduleName with
  | none =>
      match lookupNamedElmt namedElmts r.valueName with
      | some e => ⟨r, some (.namedElmt e), false⟩
      | none =>
          match lookupValue m.valueDefs r.valueName with
          | some _ => ⟨r, some (.value m.modId r.valueName), false⟩
          | none =>
              match lookupImportElmt r.valueName m.imports with
              | some (imp, e) =>
                  if e.privateScope then ⟨r, none, true⟩
                  else ⟨r, resolvedRef ms imp r.valueName, false⟩
              | none => ⟨r, none, true⟩
  | some moduleName =>
      match m.imports.find? fun imp => imp.modId.name = moduleName with
      | none => ⟨r, none, true⟩
      | some imp =>
          match lookupImportElmtInImportElmtList imp.importElmts r.valueName with
          | none => ⟨r, none, true⟩
          | some _ => ⟨r, resolvedRef ms imp r.valueName, false⟩

section Walk

variable (link : List NamedElmt → ValueRef → Outcome)

/-- The components that are references, which belong to no type. -/
def valueLinkOid (oid : List (Option ValueRef)) : List Outcome := (oid.filterMap id).map (link [])

def valueLinkValue (namedElmts : List NamedElmt) : BasicValue → List Outcome
  | .valueRef ref => [link namedElmts ref]
  | .linkedOid oid => valueLinkOid link oid
  | .other => []

def valueLinkOptional (namedElmts : List NamedElmt) : Option BasicValue → List Outcome
  | some value => valueLinkValue link namedElmts value
  | none => []

mutual

def valueLinkType : AsnType → List Outcome
  | .mk tags basicType subtypes defaultVal =>
      tags.flatMap (valueLinkOptional link basicType.getAllNamedElmts) ++
        valueLinkBasicType basicType ++
        valueLinkSubtypes basicType.getAllNamedElmts subtypes ++
        valueLinkOptional link basicType.getAllNamedElmts defaultVal

/-- What an OCTET STRING or a BIT STRING contains is among the types that cause no action, as are
the types behind COMPONENTS OF and selections. -/
def valueLinkBasicType : BasicType → List Outcome
  | .elmts _ elmts => valueLinkElmtTypes elmts
  | .setOf elmt => valueLinkType elmt
  | .named elmts => elmts.flatMap fun e => valueLinkValue link [] e.value
  | .macroType types values => valueLinkElmtTypes types ++ values.flatMap (valueLinkValue link [])
  | .containing _ | .componentsOf _ | .selection _ _ | .typeRef _ _ | .other => []

def valueLinkElmtTypes : List AsnType → List Outcome
  | [] => []
  | type :: types => valueLinkType type ++ valueLinkElmtTypes types

def valueLinkSubtypes (namedElmts : List NamedElmt) : Subtype → List Outcome
  | .null => []
  | .single value => valueLinkSubtypeValue namedElmts value
  | .compound elmts => valueLinkSubtypeList namedElmts elmts

def valueLinkSubtypeList (namedElmts : List NamedElmt) : List Subtype → List Outcome
  | [] => []
  | s :: ss => valueLinkSubtypes namedElmts s ++ valueLinkSubtypeList namedElmts ss

def valueLinkSubtypeValue (namedElmts : List NamedElmt) : SubtypeValue → List Outcome
  | .singleValue value => valueLinkValue link namedElmts value
  | .contained type => valueLinkType type
  | .valueRange lower upper =>
      valueLinkValue link namedElmts lower ++ valueLinkValue link namedElmts upper
  | .permittedAlphabet subtype | .sizeConstraint subtype => valueLinkSubtypes namedElmts subtype
  | .innerSubtype constraints => valueLinkConstraints namedElmts constraints

def valueLinkConstraints (namedElmts : List NamedElmt) : List Constraint → List Outcome
  | [] => []
  | .mk _ valueConstraints :: cs =>
      valueLinkSubtypes namedElmts valueConstraints ++ valueLinkConstraints namedElmts cs

end

def valueLinkValueDef (v : ValueDef) : List Outcome :=
  valueLinkType link v.type ++ valueLinkValue link v.type.getAllNamedElmts v.value

end Walk

/-- The pass over one module. -/
def linkModule (ms : List Module) (m : Module) : List Outcome :=
  valueLinkOid (linkValueRef ms m) m.oid ++
    m.typeDefs.flatMap (valueLinkType (linkValueRef ms m)) ++
    m.valueDefs.flatMap (valueLinkValueDef (linkValueRef ms m))

/-- Whether the module ends with `MOD_ERROR`. -/
def moduleFails (ms : List Module) (m : Module) : Bool :=
  m.failed || valueLinkImportLists ms m || (linkModule ms m).any Outcome.error

/-- The result, and what became of the references. -/
def linkValueRefs (ms : List Module) : ℤ × List Outcome :=
  (if ms.any (moduleFails ms) then -1 else 0, ms.flatMap (linkModule ms))

/-- The link that a reference has in the end. -/
def linkOf (outcomes : List Outcome) (r : ValueRef) : Option Target :=
  (outcomes.find? fun o => o.ref = r).bind Outcome.link

end Esnacc.Compiler.Values
