import Esnacc.Lib.EntryMap

/-!
The modules that are loaded, with their versions and their operations, as the lookup tables of
both runtimes keep them.
-/

namespace Esnacc.LoadedModules

open EntryMap

/-- `ω` is what is known of the versions of an operation. -/
structure LoadedModule (ι ω : Type) where
  moduleName : String
  version : String
  invokes : List (ι × ω)
  events : List (ι × ω)
  deriving DecidableEq, Repr

variable {ι ω : Type} [DecidableEq ι]

/-- The operations of a kind. -/
def LoadedModule.operations (module : LoadedModule ι ω) : (isEvent : Bool) → List (ι × ω)
  | true => module.events
  | false => module.invokes

def LoadedModule.setOperations (module : LoadedModule ι ω) (operations : List (ι × ω)) :
    (isEvent : Bool) → LoadedModule ι ω
  | true => { module with events := operations }
  | false => { module with invokes := operations }

/-- A module with its entry; a new one has no version and no operations. -/
def moduleOf (loaded : List (String × LoadedModule ι ω)) (moduleName : String) :
    LoadedModule ι ω :=
  (get loaded moduleName).getD ⟨moduleName, "", [], []⟩

def setVersion (loaded : List (String × LoadedModule ι ω)) (moduleName version : String) :
    List (String × LoadedModule ι ω) :=
  set loaded moduleName
    { moduleOf loaded moduleName with moduleName := moduleName, version := version }

def track (loaded : List (String × LoadedModule ι ω)) (moduleName : String) (isEvent : Bool)
    (operationID : ι) (info : ω) : List (String × LoadedModule ι ω) :=
  let module := { moduleOf loaded moduleName with moduleName := moduleName }
  set loaded moduleName
    (module.setOperations (set (module.operations isEvent) operationID info) isEvent)

def untrack (loaded : List (String × LoadedModule ι ω)) (moduleName : String) (isEvent : Bool)
    (operationID : ι) : List (String × LoadedModule ι ω) :=
  match get loaded moduleName with
  | none => loaded
  | some module =>
      set loaded moduleName
        (module.setOperations (delete (module.operations isEvent) operationID) isEvent)

/-- The entry of an operation in a module under a kind. -/
def listed (loaded : List (String × LoadedModule ι ω)) (moduleName : String) (isEvent : Bool)
    (operationID : ι) : Option ω :=
  (get loaded moduleName).bind fun module => get (module.operations isEvent) operationID

/-- The modules list exactly the given operations, under their module and kind. -/
def Tracks (loaded : List (String × LoadedModule ι ω)) (place : ι → Option (String × Bool)) :
    Prop :=
  ∀ moduleName isEvent operationID, (listed loaded moduleName isEvent operationID).isSome ↔
    place operationID = some (moduleName, isEvent)

omit [DecidableEq ι] in
theorem operations_setOperations (module : LoadedModule ι ω) (operations : List (ι × ω))
    (isEvent kind : Bool) : (module.setOperations operations isEvent).operations kind =
      if kind = isEvent then operations else module.operations kind := by
  cases isEvent <;> cases kind <;> rfl

/-- Setting the entry of a module. -/
theorem listed_set (loaded : List (String × LoadedModule ι ω)) (name moduleName : String)
    (module : LoadedModule ι ω) (isEvent : Bool) (operationID : ι) :
    listed (set loaded name module) moduleName isEvent operationID =
      if moduleName = name then get (module.operations isEvent) operationID
      else listed loaded moduleName isEvent operationID := by
  rw [listed, get_set, Function.update_apply]
  split <;> rfl

theorem listed_eq (loaded : List (String × LoadedModule ι ω)) (moduleName : String)
    (isEvent : Bool) (operationID : ι) : listed loaded moduleName isEvent operationID =
      get ((moduleOf loaded moduleName).operations isEvent) operationID := by
  rw [listed, moduleOf]
  cases get loaded moduleName with
  | some module => rfl
  | none => cases isEvent <;> rfl

section Tracks

variable {loaded : List (String × LoadedModule ι ω)} {place : ι → Option (String × Bool)}

theorem Tracks.empty : Tracks ([] : List (String × LoadedModule ι ω)) fun _ : ι => none := by
  intro moduleName isEvent operationID
  simp [listed]

theorem Tracks.setVersion (h : Tracks loaded place) (moduleName version : String) :
    Tracks (setVersion loaded moduleName version) place := by
  intro name isEvent operationID
  rw [LoadedModules.setVersion, listed_set, ← h]
  split
  · next hname =>
      rw [hname, listed_eq]
      cases isEvent <;> rfl
  · exact Iff.rfl

theorem Tracks.track (h : Tracks loaded place) {operationID : ι}
    (hnew : place operationID = none) (moduleName : String) (isEvent : Bool) (info : ω) :
    Tracks (track loaded moduleName isEvent operationID info)
      (Function.update place operationID (some (moduleName, isEvent))) := by
  intro name kind i
  have hold := h name kind i
  rw [LoadedModules.track, listed_set, operations_setOperations, Function.update_apply]
  have hkeep (kind : Bool) : LoadedModule.operations
      { moduleOf loaded moduleName with moduleName := moduleName } kind =
        (moduleOf loaded moduleName).operations kind := by
    cases kind <;> rfl
  rw [hkeep, hkeep]
  by_cases hname : name = moduleName
  · subst hname
    rw [if_pos rfl]
    rw [listed_eq] at hold
    by_cases hkind : kind = isEvent
    · subst hkind
      rw [if_pos rfl, get_set, Function.update_apply]
      split
      · simp
      · exact hold
    · rw [if_neg hkind, hold]
      split
      · next hi => simp [hi, hnew, Ne.symm hkind]
      · exact Iff.rfl
  · rw [if_neg hname, hold]
    split
    · next hi => simp [hi, hnew, Ne.symm hname]
    · exact Iff.rfl

theorem Tracks.untrack (h : Tracks loaded place) {operationID : ι} {moduleName : String}
    {isEvent : Bool} (hplace : place operationID = some (moduleName, isEvent)) :
    Tracks (untrack loaded moduleName isEvent operationID)
      (Function.update place operationID none) := by
  intro name kind i
  have hold := h name kind i
  have hmine := (h moduleName isEvent operationID).mpr hplace
  rw [LoadedModules.untrack, Function.update_apply]
  cases hget : get loaded moduleName with
  | none => simp [listed, hget] at hmine
  | some module =>
      have hlisted (kind : Bool) (i : ι) :
          listed loaded moduleName kind i = get (module.operations kind) i := by
        rw [listed, hget, Option.bind_some]
      simp only
      rw [listed_set, operations_setOperations]
      by_cases hname : name = moduleName
      · subst hname
        rw [if_pos rfl]
        rw [hlisted] at hold
        by_cases hkind : kind = isEvent
        · subst hkind
          rw [if_pos rfl, get_delete, Function.update_apply]
          split
          · simp
          · exact hold
        · rw [if_neg hkind, hold]
          split
          · next hi => simp [hi, hplace, Ne.symm hkind]
          · exact Iff.rfl
      · rw [if_neg hname, hold]
        split
        · next hi => simp [hi, hplace, Ne.symm hname]
        · exact Iff.rfl

/-- A module without operations is removed. -/
theorem Tracks.delete (h : Tracks loaded place) {moduleName : String}
    (hnone : ∀ operationID isEvent, place operationID ≠ some (moduleName, isEvent)) :
    Tracks (delete loaded moduleName) place := by
  intro name isEvent operationID
  rw [← h, listed, get_delete, Function.update_apply]
  split
  · next hname =>
      rw [hname, h]
      simpa using hnone operationID isEvent
  · rfl

end Tracks

end Esnacc.LoadedModules
