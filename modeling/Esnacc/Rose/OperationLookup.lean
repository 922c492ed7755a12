import Esnacc.Lib.Transition
import Esnacc.Rose.LoadedModules

/-!
The lookup table of the operations that a listener serves, in the release build. Five maps are
filled together; whether an operation is registered already is decided by its id alone, so that
a name that comes with a second id is lost for the first one.
-/

namespace Esnacc.OperationLookup

open EntryMap LoadedModules Transition

/-- `SnaccOpVersionInfo`. -/
structure OpVersionInfo where
  ullAddedUnix : ℕ
  ullDeprecatedUnix : ℕ
  deriving DecidableEq, Repr

/-- `SnaccRoseOperationLookup`. -/
structure Lookup where
  bSealed : Bool
  mapOpToID : List (String × ℕ)
  mapIDToOp : List (ℕ × String)
  mapIDToInterface : List (ℕ × ℕ)
  loadedModules : List (String × LoadedModule ℕ OpVersionInfo)
  mapIDToModuleKind : List (ℕ × String × Bool)
  deriving DecidableEq, Repr

/-- The calls that change the table. A null pointer is no string. -/
inductive Call
  | registerModuleVersion (szModuleName szVersion : Option String)
  | registerOperation (uiOpID : ℕ) (szOpName : Option String) (uiInterfaceID : ℕ)
      (szModuleName : Option String) (bIsEvent : Bool) (ullAddedUnix ullDeprecatedUnix : ℕ)
  | clearRegisteredOperations
  | setSealed
  deriving DecidableEq, Repr

namespace Lookup

def empty : Lookup := ⟨false, [], [], [], [], []⟩

def registerModuleVersion (lookup : Lookup) (szModuleName szVersion : Option String) : Lookup :=
  match szModuleName, szVersion with
  | some szModuleName, some szVersion =>
      if lookup.bSealed then lookup
      else { lookup with
        loadedModules := setVersion lookup.loadedModules szModuleName szVersion }
  | _, _ => lookup

/-- What is entered for an operation that is new. -/
def enter (lookup : Lookup) (uiOpID : ℕ) (szOpName : String) (uiInterfaceID : ℕ)
    (szModuleName : String) (bIsEvent : Bool) (info : OpVersionInfo) : Lookup :=
  { lookup with
    mapOpToID := set lookup.mapOpToID szOpName uiOpID
    mapIDToOp := set lookup.mapIDToOp uiOpID szOpName
    mapIDToInterface := set lookup.mapIDToInterface uiOpID uiInterfaceID
    mapIDToModuleKind := set lookup.mapIDToModuleKind uiOpID (szModuleName, bIsEvent)
    loadedModules := track lookup.loadedModules szModuleName bIsEvent uiOpID info }

def registerOperation (lookup : Lookup) (uiOpID : ℕ) (szOpName : Option String)
    (uiInterfaceID : ℕ) (szModuleName : Option String) (bIsEvent : Bool)
    (ullAddedUnix ullDeprecatedUnix : ℕ) : Lookup :=
  match szOpName, szModuleName with
  | some szOpName, some szModuleName =>
      if lookup.bSealed then lookup
      else if (get lookup.mapIDToOp uiOpID).isSome then lookup
      else lookup.enter uiOpID szOpName uiInterfaceID szModuleName bIsEvent
        ⟨ullAddedUnix, ullDeprecatedUnix⟩
  | _, _ => lookup

def clearRegisteredOperations (lookup : Lookup) : Lookup :=
  if lookup.bSealed then lookup else empty

/-- `Seal`. -/
def setSealed (lookup : Lookup) : Lookup := { lookup with bSealed := true }

def apply (lookup : Lookup) : Call → Lookup
  | .registerModuleVersion szModuleName szVersion =>
      lookup.registerModuleVersion szModuleName szVersion
  | .registerOperation uiOpID szOpName uiInterfaceID szModuleName bIsEvent added deprecated =>
      lookup.registerOperation uiOpID szOpName uiInterfaceID szModuleName bIsEvent added deprecated
  | .clearRegisteredOperations => lookup.clearRegisteredOperations
  | .setSealed => lookup.setSealed

def lookUpName (lookup : Lookup) (uiOpID : ℕ) : Option String := get lookup.mapIDToOp uiOpID

def lookUpID (lookup : Lookup) : (szOpName : Option String) → ℕ
  | none => 0
  | some szOpName => (get lookup.mapOpToID szOpName).getD 0

def lookUpInterfaceID (lookup : Lookup) (uiOpID : ℕ) : ℕ :=
  (get lookup.mapIDToInterface uiOpID).getD 0

def lookUpModuleName (lookup : Lookup) (uiOpID : ℕ) : Option String :=
  (get lookup.mapIDToModuleKind uiOpID).map Prod.fst

end Lookup

def Step (lookup : Lookup) (call : Call) (lookup' : Lookup) : Prop := lookup' = lookup.apply call

/-! ### What the table should keep -/

/-- The id of the name of a registered operation is its own. -/
def InverseLookups (lookup : Lookup) : Prop :=
  ∀ uiOpID name, lookup.lookUpName uiOpID = some name → lookup.lookUpID (some name) = uiOpID

/-- What has a name has a module and a kind, and is listed there and nowhere else. -/
structure ModulesExact (lookup : Lookup) : Prop where
  registered : ∀ uiOpID, (lookup.lookUpName uiOpID).isSome ↔
    (get lookup.mapIDToModuleKind uiOpID).isSome
  listed : Tracks lookup.loadedModules (get lookup.mapIDToModuleKind)

/-- No call changes anything any more. -/
def Frozen (lookup : Lookup) : Prop := ∀ call, lookup.apply call = lookup

/-- A call that registers an operation comes with a name that no other one has. -/
def NameIsNew (lookup : Lookup) : Call → Prop
  | .registerOperation uiOpID (some szOpName) _ (some _) _ _ _ =>
      lookup.bSealed = false → lookup.lookUpName uiOpID = none →
        ∀ id, lookup.lookUpName id ≠ some szOpName
  | _ => True

/-! ### One call -/

variable {lookup lookup' : Lookup} {trace : List Call}

theorem frozen_of_sealed (h : lookup.bSealed = true) : Frozen lookup := by
  intro call
  cases call with
  | registerModuleVersion szModuleName szVersion =>
      cases szModuleName <;> cases szVersion <;>
        simp [Lookup.apply, Lookup.registerModuleVersion, h]
  | registerOperation uiOpID szOpName uiInterfaceID szModuleName bIsEvent added deprecated =>
      cases szOpName <;> cases szModuleName <;>
        simp [Lookup.apply, Lookup.registerOperation, h]
  | clearRegisteredOperations => simp [Lookup.apply, Lookup.clearRegisteredOperations, h]
  | setSealed =>
      rw [Lookup.apply, Lookup.setSealed, ← h]

/-- What a call can do: nothing to the operations, forget them all, or enter a new one. -/
inductive Change (lookup : Lookup) : Call → Lookup → Prop
  | same {call : Call} {lookup' : Lookup} (hop : lookup'.mapOpToID = lookup.mapOpToID)
      (hid : lookup'.mapIDToOp = lookup.mapIDToOp)
      (hkind : lookup'.mapIDToModuleKind = lookup.mapIDToModuleKind)
      (hloaded : lookup'.loadedModules = lookup.loadedModules ∨ ∃ moduleName version,
        lookup'.loadedModules = setVersion lookup.loadedModules moduleName version)
      (hnew : NameIsNew lookup call) : Change lookup call lookup'
  | cleared {call : Call} (hnew : NameIsNew lookup call) : Change lookup call .empty
  | entered (uiOpID : ℕ) (szOpName : String) (uiInterfaceID : ℕ) (szModuleName : String)
      (bIsEvent : Bool) (ullAddedUnix ullDeprecatedUnix : ℕ) (hopen : lookup.bSealed = false)
      (hfree : lookup.lookUpName uiOpID = none) :
      Change lookup (.registerOperation uiOpID (some szOpName) uiInterfaceID (some szModuleName)
        bIsEvent ullAddedUnix ullDeprecatedUnix)
        (lookup.enter uiOpID szOpName uiInterfaceID szModuleName bIsEvent
          ⟨ullAddedUnix, ullDeprecatedUnix⟩)

theorem Change.unchanged {call : Call} (hnew : NameIsNew lookup call) :
    Change lookup call lookup := .same rfl rfl rfl (.inl rfl) hnew

theorem change_apply (lookup : Lookup) (call : Call) : Change lookup call (lookup.apply call) := by
  cases call with
  | registerModuleVersion szModuleName szVersion =>
      rw [Lookup.apply, Lookup.registerModuleVersion.eq_def]
      split
      · split_ifs
        · exact .unchanged trivial
        · exact .same rfl rfl rfl (.inr ⟨_, _, rfl⟩) trivial
      · exact .unchanged trivial
  | registerOperation uiOpID szOpName uiInterfaceID szModuleName bIsEvent added deprecated =>
      cases szOpName with
      | none => exact .unchanged trivial
      | some szOpName =>
          cases szModuleName with
          | none => exact .unchanged trivial
          | some szModuleName =>
              rw [Lookup.apply, Lookup.registerOperation]
              split_ifs with hsealed hknown
              · exact .unchanged fun hopen => by simp [hsealed] at hopen
              · refine .unchanged fun _ hfree => ?_
                rw [Lookup.lookUpName] at hfree
                simp [hfree] at hknown
              · refine .entered _ _ _ _ _ _ _ (Bool.eq_false_iff.mpr hsealed) ?_
                rwa [Option.not_isSome_iff_eq_none] at hknown
  | clearRegisteredOperations =>
      rw [Lookup.apply, Lookup.clearRegisteredOperations]
      split_ifs
      · exact .unchanged trivial
      · exact .cleared trivial
  | setSealed => exact .same rfl rfl rfl (.inl rfl) trivial

/-- Ids and names are inverse, as maps. -/
def InverseMaps (lookup : Lookup) : Prop :=
  Inverse (get lookup.mapIDToOp) (get lookup.mapOpToID)

theorem InverseMaps.lookups (h : InverseMaps lookup) : InverseLookups lookup := by
  intro uiOpID name hname
  rw [Lookup.lookUpID, (h uiOpID name).mp hname, Option.getD_some]

theorem inverseMaps_apply (h : InverseMaps lookup) {call : Call} (hnew : NameIsNew lookup call) :
    InverseMaps (lookup.apply call) := by
  have hchange := change_apply lookup call
  generalize lookup.apply call = lookup' at hchange ⊢
  cases hchange with
  | same hop hid hkind hloaded _ => rwa [InverseMaps, hop, hid]
  | cleared _ => exact Inverse.empty
  | entered uiOpID szOpName uiInterfaceID szModuleName bIsEvent added deprecated hopen hfree =>
      rw [InverseMaps, Lookup.enter, get_set, get_set]
      exact h.add hfree (hnew hopen hfree)

theorem nameIsNew_of_inverseLookups {call : Call}
    (hafter : InverseLookups (lookup.apply call)) : NameIsNew lookup call := by
  have hchange := change_apply lookup call
  generalize lookup.apply call = lookup' at hchange hafter
  cases hchange with
  | same _ _ _ _ hnew => exact hnew
  | cleared hnew => exact hnew
  | entered uiOpID szOpName uiInterfaceID szModuleName bIsEvent added deprecated hopen hfree =>
      intro _ _ id hid
      have hne : id ≠ uiOpID := by
        rintro rfl
        rw [hfree] at hid
        cases hid
      have hkept : (lookup.enter uiOpID szOpName uiInterfaceID szModuleName bIsEvent
          ⟨added, deprecated⟩).lookUpName id = some szOpName := by
        rw [Lookup.lookUpName, Lookup.enter, get_set, Function.update_of_ne hne]
        exact hid
      have hlost := hafter id szOpName hkept
      rw [Lookup.lookUpID, Lookup.enter, get_set, Function.update_self, Option.getD_some] at hlost
      exact hne hlost.symm

theorem modulesExact_apply (h : ModulesExact lookup) (call : Call) :
    ModulesExact (lookup.apply call) := by
  have hchange := change_apply lookup call
  generalize lookup.apply call = lookup' at hchange ⊢
  cases hchange with
  | same hop hid hkind hloaded _ =>
      refine ⟨fun uiOpID => ?_, ?_⟩
      · rw [Lookup.lookUpName, hid, hkind]
        exact h.registered uiOpID
      · rw [hkind]
        rcases hloaded with hloaded | ⟨moduleName, version, hloaded⟩
        · rw [hloaded]
          exact h.listed
        · rw [hloaded]
          exact h.listed.setVersion moduleName version
  | cleared _ => exact ⟨fun _ => Iff.rfl, Tracks.empty⟩
  | entered uiOpID szOpName uiInterfaceID szModuleName bIsEvent added deprecated hopen hfree =>
      refine ⟨fun id => ?_, ?_⟩
      · rw [Lookup.lookUpName, Lookup.enter, get_set, get_set, Function.update_apply,
          Function.update_apply]
        split
        · exact Iff.rfl
        · exact h.registered id
      · have hnone : get lookup.mapIDToModuleKind uiOpID = none := by
          rw [← Option.not_isSome_iff_eq_none, ← h.registered, hfree]
          exact Bool.false_ne_true
        rw [Lookup.enter, get_set]
        exact h.listed.track hnone szModuleName bIsEvent _

/-! ### Runs -/

theorem modulesExact_run (h : Run Step .empty trace lookup) : ModulesExact lookup :=
  h.state_invariant ⟨fun _ => Iff.rfl, Tracks.empty⟩ fun _ call _ hinv hstep =>
    hstep ▸ modulesExact_apply hinv call

theorem inverseMaps_run (h : Run (restrict Step NameIsNew) .empty trace lookup) :
    InverseMaps lookup :=
  h.state_invariant Inverse.empty fun _ _ _ hinv hstep =>
    hstep.1 ▸ inverseMaps_apply hinv hstep.2

theorem run_calls (calls : List Call) :
    Run Step .empty calls (calls.foldl Lookup.apply .empty) := by
  induction calls using List.reverseRecOn with
  | nil => exact .nil
  | append_singleton calls call ih =>
      rw [List.foldl_append]
      exact .snoc ih rfl

theorem operationLookup_exact (trace : List Call) (lookup : Lookup) :
    (Run Step .empty trace lookup → ModulesExact lookup ∧
      (lookup.bSealed = true → Frozen lookup)) ∧
    (Run (restrict Step NameIsNew) .empty trace lookup → InverseLookups lookup ∧
      ∀ call, InverseLookups (lookup.apply call) ↔ NameIsNew lookup call) := by
  refine ⟨fun h => ⟨modulesExact_run h, frozen_of_sealed⟩, fun h => ?_⟩
  have hinv := inverseMaps_run h
  refine ⟨hinv.lookups, fun call => ⟨nameIsNew_of_inverseLookups, fun hnew => ?_⟩⟩
  exact (inverseMaps_apply hinv hnew).lookups

/-- One operation, and the table is sealed. -/
def oneName : List Call :=
  [.registerOperation 1 (some "asnGetVersion") 10 (some "A") false 0 0, .setSealed]

theorem operationLookup_exact_oneName :
    Frozen (oneName.foldl Lookup.apply .empty) ∧
      InverseLookups (oneName.foldl Lookup.apply .empty) := by
  have hrun : Run (restrict Step NameIsNew) .empty oneName (oneName.foldl Lookup.apply .empty) := by
    refine .snoc (.snoc .nil ⟨rfl, ?_⟩) ⟨rfl, trivial⟩
    rintro - - id ⟨⟩
  exact ⟨((operationLookup_exact _ _).1 (run_calls oneName)).2 rfl,
    ((operationLookup_exact _ _).2 hrun).1⟩

/-- Two modules have an operation of the same name. -/
def sameNames : List Call :=
  [.registerOperation 1 (some "asnGetVersion") 10 (some "A") false 0 0,
    .registerOperation 2 (some "asnGetVersion") 20 (some "B") false 0 0]

theorem not_inverseLookups :
    ¬ ∀ trace lookup, Run Step .empty trace lookup → InverseLookups lookup := by
  intro h
  have hinverse := h _ _ (run_calls sameNames) 1 "asnGetVersion" (by decide)
  revert hinverse
  decide

end Esnacc.OperationLookup
