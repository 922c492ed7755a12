import Esnacc.Lib.Transition
import Esnacc.Rose.LoadedModules

/-!
The operations that are registered with a transport, and the modules they belong to. The name of
an operation is entered without a look at who has it, and is deleted with the operation.
-/

namespace Esnacc.Ts.OperationRegistry

open EntryMap LoadedModules Transition

/-- `ι` are the numbers that serve as ids; the objects that handle an invoke are left out. -/
structure Handler (ι : Type) where
  operationID : ι
  operationName : String
  moduleName : String
  moduleInterfaceId : ℕ
  addedUnix : ℕ
  deprecatedUnix : ℕ
  isEvent : Bool
  deriving DecidableEq, Repr

structure OpVersionInfo where
  addedUnix : ℕ
  deprecatedUnix : ℕ
  opName : String
  deriving DecidableEq, Repr

structure Registry (ι : Type) where
  handlersByID : List (ι × Handler ι)
  handlersByName : List (String × Handler ι)
  interfaceIdsByOpId : List (ι × ℕ)
  loadedModulesByName : List (String × LoadedModule ι OpVersionInfo)
  deriving DecidableEq, Repr

inductive Call (ι : Type)
  | registerOperation (handler : Handler ι)
  | unregisterOperation (operationID : ι)
  | unregisterModule (moduleName : String)
  | registerModuleVersion (moduleName version : String)
  deriving DecidableEq, Repr

variable {ι : Type}

def Registry.empty : Registry ι := ⟨[], [], [], []⟩

variable [DecidableEq ι]

namespace Registry

/-- `trackRegisteredOperation`. -/
def trackRegisteredOperation (r : Registry ι) (handler : Handler ι) : Registry ι :=
  { r with
    loadedModulesByName := track r.loadedModulesByName handler.moduleName handler.isEvent
      handler.operationID ⟨handler.addedUnix, handler.deprecatedUnix, handler.operationName⟩ }

def registerOperation (r : Registry ι) (handler : Handler ι) : Registry ι :=
  if (get r.handlersByID handler.operationID).isSome then r
  else
    trackRegisteredOperation
      { r with
        handlersByID := set r.handlersByID handler.operationID handler
        handlersByName := set r.handlersByName handler.operationName handler
        interfaceIdsByOpId :=
          set r.interfaceIdsByOpId handler.operationID handler.moduleInterfaceId } handler

def unregisterOperation (r : Registry ι) (operationID : ι) : Registry ι :=
  match get r.handlersByID operationID with
  | none => r
  | some handler =>
      { handlersByID := delete r.handlersByID operationID
        handlersByName := delete r.handlersByName handler.operationName
        interfaceIdsByOpId := delete r.interfaceIdsByOpId operationID
        loadedModulesByName :=
          untrack r.loadedModulesByName handler.moduleName handler.isEvent operationID }

/-- One pass of the loop of `unregisterModule`. -/
def unregisterIfIn (moduleName : String) (r : Registry ι) (operationID : ι) : Registry ι :=
  if (get r.handlersByID operationID).map Handler.moduleName = some moduleName then
    r.unregisterOperation operationID
  else r

def unregisterModule (r : Registry ι) (moduleName : String) : Registry ι :=
  let r := (keys r.handlersByID).foldl (unregisterIfIn moduleName) r
  { r with loadedModulesByName := delete r.loadedModulesByName moduleName }

def registerModuleVersion (r : Registry ι) (moduleName version : String) : Registry ι :=
  { r with loadedModulesByName := setVersion r.loadedModulesByName moduleName version }

def apply (r : Registry ι) : Call ι → Registry ι
  | .registerOperation handler => r.registerOperation handler
  | .unregisterOperation operationID => r.unregisterOperation operationID
  | .unregisterModule moduleName => r.unregisterModule moduleName
  | .registerModuleVersion moduleName version => r.registerModuleVersion moduleName version

def lookUpName (r : Registry ι) (operationID : ι) : Option String :=
  (get r.handlersByID operationID).map Handler.operationName

def lookUpID (r : Registry ι) (operationName : String) : Option ι :=
  (get r.handlersByName operationName).map Handler.operationID

def lookUpModuleName (r : Registry ι) (operationID : ι) : Option String :=
  (get r.handlersByID operationID).map Handler.moduleName

def lookUpInterfaceID (r : Registry ι) (operationID : ι) : ℕ :=
  (get r.interfaceIdsByOpId operationID).getD 0

/-- Where a registered operation belongs. -/
def place (r : Registry ι) (operationID : ι) : Option (String × Bool) :=
  (get r.handlersByID operationID).map fun handler => (handler.moduleName, handler.isEvent)

end Registry

def Step (r : Registry ι) (call : Call ι) (r' : Registry ι) : Prop := r' = r.apply call

/-! ### What the registry should keep -/

/-- Looking up by id and by name are inverse. -/
def InverseLookups (r : Registry ι) : Prop := Inverse r.lookUpName r.lookUpID

/-- The modules list exactly the registered operations, under their kind, and each operation has
its interface. -/
structure ModulesExact (r : Registry ι) : Prop where
  listed : Tracks r.loadedModulesByName r.place
  interfaces : ∀ operationID, get r.interfaceIdsByOpId operationID =
    (get r.handlersByID operationID).map Handler.moduleInterfaceId

/-- A call that registers an operation comes with a name that no other one has. -/
def NameIsNew (r : Registry ι) : Call ι → Prop
  | .registerOperation handler => r.lookUpName handler.operationID = none →
      ∀ id, r.lookUpName id ≠ some handler.operationName
  | _ => True

/-! ### One call -/

variable {r : Registry ι}

theorem map_comp_get_set {κ α β : Type} [DecidableEq κ] (f : α → β) (m : List (κ × α)) (key : κ)
    (value : α) : (fun k => (get (set m key value) k).map f) =
      Function.update (fun k => (get m k).map f) key (some (f value)) := by
  rw [get_set]
  exact Function.comp_update (Option.map f) (get m) key (some value)

theorem map_comp_get_delete {κ α β : Type} [DecidableEq κ] (f : α → β) (m : List (κ × α))
    (key : κ) : (fun k => (get (delete m key) k).map f) =
      Function.update (fun k => (get m k).map f) key none := by
  rw [get_delete]
  exact Function.comp_update (Option.map f) (get m) key none

theorem isSome_lookUpName (r : Registry ι) (id : ι) :
    (r.lookUpName id).isSome = (get r.handlersByID id).isSome := Option.isSome_map

/-! Registering -/

section Register

variable (handler : Handler ι) (hfree : r.lookUpName handler.operationID = none)

include hfree

theorem registerOperation_eq : r.registerOperation handler = Registry.trackRegisteredOperation
    { r with
      handlersByID := set r.handlersByID handler.operationID handler
      handlersByName := set r.handlersByName handler.operationName handler
      interfaceIdsByOpId :=
        set r.interfaceIdsByOpId handler.operationID handler.moduleInterfaceId } handler := by
  refine if_neg ?_
  rw [← isSome_lookUpName, hfree]
  exact Bool.false_ne_true

theorem lookUpName_registerOperation : (r.registerOperation handler).lookUpName =
    Function.update r.lookUpName handler.operationID (some handler.operationName) := by
  rw [registerOperation_eq handler hfree]
  exact map_comp_get_set _ _ _ _

theorem lookUpID_registerOperation : (r.registerOperation handler).lookUpID =
    Function.update r.lookUpID handler.operationName (some handler.operationID) := by
  rw [registerOperation_eq handler hfree]
  exact map_comp_get_set _ _ _ _

theorem place_registerOperation : (r.registerOperation handler).place =
    Function.update r.place handler.operationID (some (handler.moduleName, handler.isEvent)) := by
  rw [registerOperation_eq handler hfree]
  exact map_comp_get_set _ _ _ _

theorem modulesExact_registerOperation (h : ModulesExact r) :
    ModulesExact (r.registerOperation handler) := by
  have hplace : r.place handler.operationID = none := by
    rw [Registry.lookUpName, Option.map_eq_none_iff] at hfree
    rw [Registry.place, hfree, Option.map_none]
  constructor
  · rw [place_registerOperation handler hfree, registerOperation_eq handler hfree]
    exact h.listed.track hplace handler.moduleName handler.isEvent _
  · intro id
    simp only [registerOperation_eq handler hfree, Registry.trackRegisteredOperation, get_set,
      Function.update_apply]
    split
    · rfl
    · exact h.interfaces id

end Register

/-! Unregistering -/

section Unregister

variable {operationID : ι}

theorem unregisterOperation_of_none (hnone : get r.handlersByID operationID = none) :
    r.unregisterOperation operationID = r := by
  rw [Registry.unregisterOperation, hnone]

variable {handler : Handler ι} (hsome : get r.handlersByID operationID = some handler)

include hsome

theorem unregisterOperation_eq : r.unregisterOperation operationID =
    { handlersByID := delete r.handlersByID operationID
      handlersByName := delete r.handlersByName handler.operationName
      interfaceIdsByOpId := delete r.interfaceIdsByOpId operationID
      loadedModulesByName :=
        untrack r.loadedModulesByName handler.moduleName handler.isEvent operationID } := by
  rw [Registry.unregisterOperation, hsome]

theorem inverseLookups_unregisterOperation (h : InverseLookups r) :
    InverseLookups (r.unregisterOperation operationID) := by
  have hname : r.lookUpName operationID = some handler.operationName := by
    rw [Registry.lookUpName, hsome, Option.map_some]
  have herase := Inverse.erase h hname
  rw [unregisterOperation_eq hsome]
  unfold InverseLookups Registry.lookUpName Registry.lookUpID at herase ⊢
  rwa [map_comp_get_delete, map_comp_get_delete]

theorem place_unregisterOperation : (r.unregisterOperation operationID).place =
    Function.update r.place operationID none := by
  rw [unregisterOperation_eq hsome]
  exact map_comp_get_delete _ _ _

theorem modulesExact_unregisterOperation (h : ModulesExact r) :
    ModulesExact (r.unregisterOperation operationID) := by
  have hplace : r.place operationID = some (handler.moduleName, handler.isEvent) := by
    rw [Registry.place, hsome, Option.map_some]
  constructor
  · rw [place_unregisterOperation hsome, unregisterOperation_eq hsome]
    exact h.listed.untrack hplace
  · intro id
    simp only [unregisterOperation_eq hsome, get_delete, Function.update_apply]
    split
    · rfl
    · exact h.interfaces id

end Unregister

/-- What every step of the loop keeps, the loop keeps. -/
theorem foldl_unregisterIfIn {P : Registry ι → Prop} (moduleName : String) (ids : List ι)
    (hstep : ∀ r id handler, get r.handlersByID id = some handler → P r →
      P (r.unregisterOperation id)) (h : P r) :
    P (ids.foldl (Registry.unregisterIfIn moduleName) r) := by
  induction ids generalizing r with
  | nil => exact h
  | cons id ids ih =>
      refine ih ?_
      rw [Registry.unregisterIfIn]
      split
      · next hmodule =>
          obtain ⟨handler, hsome, -⟩ := Option.map_eq_some_iff.mp hmodule
          exact hstep r id handler hsome h
      · exact h

/-- The loop goes over everything that it should unregister. -/
theorem place_foldl_unregisterIfIn (moduleName : String) (ids : List ι) (r : Registry ι) (id : ι)
    (isEvent : Bool)
    (h : (ids.foldl (Registry.unregisterIfIn moduleName) r).place id = some (moduleName, isEvent)) :
    r.place id = some (moduleName, isEvent) ∧ id ∉ ids := by
  induction ids generalizing r with
  | nil => exact ⟨h, List.not_mem_nil⟩
  | cons first ids ih =>
      obtain ⟨hplace, hrest⟩ := ih _ h
      rw [Registry.unregisterIfIn] at hplace
      split at hplace
      · next hmodule =>
          obtain ⟨handler, hsome, -⟩ := Option.map_eq_some_iff.mp hmodule
          rw [place_unregisterOperation hsome, Function.update_apply] at hplace
          split_ifs at hplace with hid
          exact ⟨hplace, by simp [hid, hrest]⟩
      · next hmodule =>
          refine ⟨hplace, fun hmem => ?_⟩
          rcases List.mem_cons.mp hmem with rfl | hmem
          · obtain ⟨handler, hsome, hin⟩ := Option.map_eq_some_iff.mp hplace
            cases hin
            exact hmodule (by rw [hsome, Option.map_some])
          · exact hrest hmem

theorem not_place_foldl (moduleName : String) (id : ι) (isEvent : Bool) :
    ((keys r.handlersByID).foldl (Registry.unregisterIfIn moduleName) r).place id ≠
      some (moduleName, isEvent) := by
  intro h
  obtain ⟨hplace, hkeys⟩ := place_foldl_unregisterIfIn moduleName _ r id isEvent h
  obtain ⟨handler, hsome, -⟩ := Option.map_eq_some_iff.mp hplace
  exact hkeys (mem_keys_iff.mpr (by rw [hsome]; rfl))

theorem modulesExact_apply (h : ModulesExact r) (call : Call ι) : ModulesExact (r.apply call) := by
  cases call with
  | registerOperation handler =>
      cases hfree : r.lookUpName handler.operationID with
      | none => exact modulesExact_registerOperation handler hfree h
      | some name =>
          have hknown : (get r.handlersByID handler.operationID).isSome := by
            rw [← isSome_lookUpName, hfree]
            rfl
          rwa [Registry.apply, Registry.registerOperation, if_pos hknown]
  | unregisterOperation operationID =>
      cases hget : get r.handlersByID operationID with
      | none => rwa [Registry.apply, unregisterOperation_of_none hget]
      | some handler => exact modulesExact_unregisterOperation hget h
  | unregisterModule moduleName =>
      have hloop := foldl_unregisterIfIn (P := ModulesExact) moduleName (keys r.handlersByID)
        (fun r id handler hsome hr => modulesExact_unregisterOperation hsome hr) h
      refine ⟨hloop.listed.delete fun id isEvent => not_place_foldl moduleName id isEvent, ?_⟩
      exact hloop.interfaces
  | registerModuleVersion moduleName version =>
      exact ⟨h.listed.setVersion moduleName version, h.interfaces⟩

theorem inverseLookups_apply (h : InverseLookups r) {call : Call ι} (hnew : NameIsNew r call) :
    InverseLookups (r.apply call) := by
  cases call with
  | registerOperation handler =>
      cases hfree : r.lookUpName handler.operationID with
      | none =>
          rw [InverseLookups, Registry.apply, lookUpName_registerOperation handler hfree,
            lookUpID_registerOperation handler hfree]
          exact Inverse.add h hfree (hnew hfree)
      | some name =>
          have hknown : (get r.handlersByID handler.operationID).isSome := by
            rw [← isSome_lookUpName, hfree]
            rfl
          rwa [Registry.apply, Registry.registerOperation, if_pos hknown]
  | unregisterOperation operationID =>
      cases hget : get r.handlersByID operationID with
      | none => rwa [Registry.apply, unregisterOperation_of_none hget]
      | some handler => exact inverseLookups_unregisterOperation hget h
  | unregisterModule moduleName =>
      exact foldl_unregisterIfIn (P := InverseLookups) moduleName (keys r.handlersByID)
        (fun r id handler hsome hr => inverseLookups_unregisterOperation hsome hr) h
  | registerModuleVersion moduleName version => exact h

theorem nameIsNew_of_inverseLookups {call : Call ι} (hafter : InverseLookups (r.apply call)) :
    NameIsNew r call := by
  cases call with
  | registerOperation handler =>
      intro hfree id hid
      rw [InverseLookups, Registry.apply, lookUpName_registerOperation handler hfree,
        lookUpID_registerOperation handler hfree] at hafter
      refine Inverse.not_add hid ?_ hafter
      rintro rfl
      rw [hfree] at hid
      cases hid
  | unregisterOperation _ => trivial
  | unregisterModule _ => trivial
  | registerModuleVersion _ _ => trivial

/-! ### Runs -/

variable {trace : List (Call ι)}

theorem modulesExact_empty : ModulesExact (Registry.empty : Registry ι) :=
  ⟨Tracks.empty, fun _ => rfl⟩

theorem modulesExact_run (h : Run Step .empty trace r) : ModulesExact r :=
  h.state_invariant modulesExact_empty fun _ call _ hinv hstep =>
    hstep ▸ modulesExact_apply hinv call

theorem inverseLookups_run (h : Run (restrict Step NameIsNew) .empty trace r) : InverseLookups r :=
  h.state_invariant Inverse.empty fun _ _ _ hinv hstep =>
    hstep.1 ▸ inverseLookups_apply hinv hstep.2

theorem run_calls (calls : List (Call ι)) :
    Run Step .empty calls (calls.foldl Registry.apply .empty) := by
  induction calls using List.reverseRecOn with
  | nil => exact .nil
  | append_singleton calls call ih =>
      rw [List.foldl_append]
      exact .snoc ih rfl

theorem operationRegistry_exact (trace : List (Call ι)) (r : Registry ι) :
    (Run Step .empty trace r → ModulesExact r) ∧
    (Run (restrict Step NameIsNew) .empty trace r →
      InverseLookups r ∧ ∀ call, InverseLookups (r.apply call) ↔ NameIsNew r call) := by
  refine ⟨modulesExact_run, fun h => ?_⟩
  have hinv := inverseLookups_run h
  exact ⟨hinv, fun call => ⟨nameIsNew_of_inverseLookups, inverseLookups_apply hinv⟩⟩

/-- One operation that comes and stays. -/
def oneName : List (Call ℕ) := [.registerOperation ⟨1, "asnGetVersion", "A", 10, 0, 0, false⟩]

theorem operationRegistry_exact_oneName :
    ModulesExact (oneName.foldl Registry.apply .empty) ∧
      InverseLookups (oneName.foldl Registry.apply .empty) := by
  have hrun : Run (restrict Step NameIsNew) .empty oneName
      (oneName.foldl Registry.apply .empty) := by
    refine .snoc .nil ⟨rfl, ?_⟩
    rintro - id ⟨⟩
  exact ⟨(operationRegistry_exact _ _).1 (run_calls oneName),
    ((operationRegistry_exact _ _).2 hrun).1⟩

/-- Two modules have an operation of the same name, and the second one is removed. -/
def sameNames : List (Call ℕ) :=
  [.registerOperation ⟨1, "asnGetVersion", "A", 10, 0, 0, false⟩,
    .registerOperation ⟨2, "asnGetVersion", "B", 20, 0, 0, false⟩, .unregisterModule "B"]

/-- The operation of the first module is still registered, and its name is not. -/
theorem not_inverse_sameNames : ¬ ∀ (trace : List (Call ℕ)) r, Run Step .empty trace r →
    InverseLookups r := by
  intro h
  have hinverse := (h _ _ (run_calls sameNames) 1 "asnGetVersion").mp (by decide)
  revert hinverse
  decide

end Esnacc.Ts.OperationRegistry
