import Mathlib

/-!
Import lists and the references that are resolved through them. The parser enters every
qualified reference `Module.Type` into the import lists of the module, with a private
scope that is to keep it apart from what the module imports under its plain name.
-/

namespace Esnacc.Compiler

/-- A name as it stands in the source. -/
abbrev Name := List Char

/-- `isupper(name[0])`: the names of types. -/
def Name.isType (n : Name) : Bool := (n.headD ' ').isUpper

/-- `islower(name[0])`: the names of values. -/
def Name.isValue (n : Name) : Bool := (n.headD ' ').isLower

/-- An OBJECT IDENTIFIER by its arcs; an arc that is still to be resolved has no number. -/
abbrev Oid := List (Option ℤ)

structure ModuleId where
  name : Name
  oid : Oid
  deriving DecidableEq, Repr

structure ImportElmt where
  name : Name
  privateScope : Bool
  deriving DecidableEq, Repr

structure ImportModule where
  modId : ModuleId
  importElmts : List ImportElmt
  deriving DecidableEq, Repr

structure TypeDef where
  definedName : Name
  exported : Bool
  deriving DecidableEq, Repr

structure Module where
  modId : ModuleId
  typeDefs : List TypeDef
  valueDefs : List Name
  imports : List ImportModule
  deriving DecidableEq, Repr

/-- A reference `modulereference.name`. -/
structure ExternalReference where
  moduleName : Name
  name : Name
  deriving DecidableEq, Repr

/-! ### Looking up -/

def lookupImportElmtInImportElmtList (impElmtList : List ImportElmt) (n : Name) :
    Option ImportElmt := impElmtList.find? fun e => e.name = n

/-- The element with the import list that holds it. -/
def lookupImportElmt (n : Name) : List ImportModule → Option (ImportModule × ImportElmt)
  | [] => none
  | imp :: imps =>
      match lookupImportElmtInImportElmtList imp.importElmts n with
      | some e => some (imp, e)
      | none => lookupImportElmt n imps

def lookupImportElmtInModule (m : Module) (n : Name) : Option (ImportModule × ImportElmt) :=
  lookupImportElmt n m.imports

def lookupImportModule (m : Module) (n : Name) : Option ImportModule :=
  m.imports.find? fun imp => imp.modId.name = n

def lookupType (typeDefs : List TypeDef) (n : Name) : Option TypeDef :=
  typeDefs.find? fun td => td.definedName = n

/-- Two lists without arcs do not count as the same. -/
def compareOids : Oid → Oid → Bool
  | some a :: as, some b :: bs => a = b ∧ (as = [] ∧ bs = [] ∨ compareOids as bs)
  | _, _ => false

/-- Either the OID or the name has to match. -/
def lookupModule (ms : List Module) (modId : ModuleId) : Option Module :=
  ms.find? fun m => compareOids modId.oid m.modId.oid || m.modId.name = modId.name

/-! ### Parsing a qualified reference -/

/-- Appends an element to the first import list of the module. -/
def appendElmt (moduleName : Name) (e : ImportElmt) : List ImportModule → List ImportModule
  | [] => []
  | imp :: imps =>
      if imp.modId.name = moduleName then { imp with importElmts := imp.importElmts ++ [e] } :: imps
      else imp :: appendElmt moduleName e imps

def addPrivateImportElmt (m : Module) (q : ExternalReference) : Module :=
  match lookupImportModule m q.moduleName with
  | none => { m with imports := m.imports ++ [⟨⟨q.moduleName, []⟩, [⟨q.name, true⟩]⟩] }
  | some impMod =>
      match lookupImportElmtInImportElmtList impMod.importElmts q.name with
      -- the new element comes as the allocator clears it
      | none => { m with imports := appendElmt q.moduleName ⟨q.name, false⟩ m.imports }
      | some _ => m

/-- The module as the parser leaves it, given the module with its IMPORTS clause and the
qualified references in the order in which they stand. -/
def parseReferences (m : Module) (qs : List ExternalReference) : Module :=
  qs.foldl addPrivateImportElmt m

/-! ### Linking -/

/-- `resolvedRef` of an element of type name `n` in an import list of `modId`. -/
def resolvedRef (ms : List Module) (modId : ModuleId) (n : Name) : Option (Module × TypeDef) :=
  match lookupModule ms modId with
  | none => none
  | some impRefMod => (lookupType impRefMod.typeDefs n).map fun td => (impRefMod, td)

/-- `TypeLinkImportLists` reports no error for the module. -/
def ImportsLinked (ms : List Module) (m : Module) : Prop :=
  ∀ imp ∈ m.imports, ∃ impRefMod, lookupModule ms imp.modId = some impRefMod ∧
    ∀ e ∈ imp.importElmts, e.name.isType = true →
      ∃ td, lookupType impRefMod.typeDefs e.name = some td ∧ td.exported = true

/-- The definition an unqualified reference is linked to. -/
def linkLocalTypeRef (ms : List Module) (m : Module) (n : Name) : Option (Module × TypeDef) :=
  match lookupType m.typeDefs n with
  | some td => some (m, td)
  | none =>
      match lookupImportElmtInModule m n with
      | some (imp, e) => if e.privateScope then none else resolvedRef ms imp.modId n
      | none => none

/-- The definition a reference `modname.type` is linked to. -/
def linkImportTypeRef (ms : List Module) (m : Module) (q : ExternalReference) :
    Option (Module × TypeDef) :=
  match lookupImportModule m q.moduleName with
  | none => none
  | some imp =>
      match lookupImportElmtInImportElmtList imp.importElmts q.name with
      | none => none
      | some e => resolvedRef ms imp.modId e.name

/-! ### The check for name conflicts -/

/-- The names that are reported when the names of a list are defined one after the other. -/
def reportDefined : List Name → List Name → List Name
  | _, [] => []
  | defined, n :: ns =>
      if n ∈ defined then n :: reportDefined defined ns else reportDefined (n :: defined) ns

/-- The elements of the import lists without a private scope. -/
def publicElmts (m : Module) : List Name :=
  ((m.imports.flatMap ImportModule.importElmts).filter fun e => !e.privateScope).map
    ImportElmt.name

def typeNames (m : Module) : List Name :=
  m.typeDefs.map TypeDef.definedName ++ (publicElmts m).filter Name.isType

def valueNames (m : Module) : List Name :=
  m.valueDefs ++ (publicElmts m).filter Name.isValue

/-- The names for which `ErrChkModule` reports "multiply defined". -/
def errChkNames (m : Module) : List Name :=
  reportDefined [] (typeNames m) ++ reportDefined [] (valueNames m)

/-! ### What is claimed -/

/-- The IMPORTS clause of the module names `n`, in a list from the module `modId`. -/
def ImportsFrom (m : Module) (modId : ModuleId) (n : Name) : Prop :=
  ∃ imp ∈ m.imports, imp.modId = modId ∧ n ∈ imp.importElmts.map ImportElmt.name

/-- How references are resolved in the module `m` with the qualified references `qs`, where
`m` has the import lists of its IMPORTS clause. -/
structure ResolvesImports (ms : List Module) (m : Module) (qs : List ExternalReference) :
    Prop where
  /-- What is defined in the module is what its name stands for. -/
  defined : ∀ n, n ∈ m.typeDefs.map TypeDef.definedName →
    ∃ td ∈ m.typeDefs, td.definedName = n ∧
      linkLocalTypeRef ms (parseReferences m qs) n = some (parseReferences m qs, td)
  /-- Otherwise it is what is imported, and only that. -/
  imported : ∀ n, n.isType = true → n ∉ m.typeDefs.map TypeDef.definedName →
    ∀ r, linkLocalTypeRef ms (parseReferences m qs) n = some r →
      ∃ modId, ImportsFrom m modId n ∧ resolvedRef ms modId n = some r
  found : ∀ n, n.isType = true → (∃ modId, ImportsFrom m modId n) →
    ∃ r, linkLocalTypeRef ms (parseReferences m qs) n = some r
  /-- A qualified reference stands for the type of the module it names, by the OID that goes
  with the name in the first import list of that name, if there is one. -/
  qualified : ∀ q ∈ qs, q.name.isType = true →
    ∃ r, linkImportTypeRef ms (parseReferences m qs) q = some r ∧
      resolvedRef ms (((lookupImportModule m q.moduleName).map ImportModule.modId).getD
        ⟨q.moduleName, []⟩) q.name = some r
  /-- Qualified references do not add a conflict. -/
  conflicts : errChkNames (parseReferences m qs) = errChkNames m

end Esnacc.Compiler
