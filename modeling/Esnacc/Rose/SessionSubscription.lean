import Mathlib

/-!
`RoseSessionSubscriptionStore`: the operation ids that a session may receive, by module and
in one flat set. The ids are not reference-counted, so an id that two modules hold leaves
the flat set together with the first of them. What the flat set says is determined for every
sequence of calls.
-/

namespace Esnacc

namespace RoseSessionSubscriptionStore

/-- `static_cast<unsigned int>` of an `int`. -/
def toUint (opId : ℤ) : ℕ := (opId % 2 ^ 32).toNat

/-- A map from the modules to their ids and the flat set that goes with it. -/
structure OpIdSets where
  moduleOpIdsByModule : ℤ → Option (Finset ℕ)
  flatOpIds : Finset ℕ

namespace OpIdSets

def empty : OpIdSets := ⟨fun _ => none, ∅⟩

/-- `ClearModuleOpIds`. -/
def clearModuleOpIds (sets : OpIdSets) (moduleIid : ℤ) : OpIdSets :=
  match sets.moduleOpIdsByModule moduleIid with
  | none => sets
  | some previous =>
      ⟨Function.update sets.moduleOpIdsByModule moduleIid none, sets.flatOpIds \ previous⟩

/-- `ReplaceModuleOpIds`. -/
def replaceModuleOpIds (sets : OpIdSets) (moduleIid : ℤ) (opIds : List ℤ) : OpIdSets :=
  let sets := sets.clearModuleOpIds moduleIid
  if opIds.isEmpty then sets
  else
    let moduleOpIds := (opIds.map toUint).toFinset
    ⟨Function.update sets.moduleOpIdsByModule moduleIid (some moduleOpIds),
      sets.flatOpIds ∪ moduleOpIds⟩

/-- Adds one id to a module and to the flat set. -/
def addOpId (sets : OpIdSets) (moduleIid : ℤ) (uiOpId : ℕ) : OpIdSets :=
  ⟨Function.update sets.moduleOpIdsByModule moduleIid
      (some (insert uiOpId ((sets.moduleOpIdsByModule moduleIid).getD ∅))),
    insert uiOpId sets.flatOpIds⟩

/-- The ids of a module, none if the map does not have it. -/
def opIdsOf (sets : OpIdSets) (moduleIid : ℤ) : Finset ℕ :=
  (sets.moduleOpIdsByModule moduleIid).getD ∅

end OpIdSets

/-- Events and invokes are kept apart. -/
inductive Kind
  | event | invoke
  deriving DecidableEq, Repr

end RoseSessionSubscriptionStore

open RoseSessionSubscriptionStore in
structure RoseSessionSubscriptionStore where
  subscribedEvents : OpIdSets
  supportedInvokes : OpIdSets

namespace RoseSessionSubscriptionStore

def empty : RoseSessionSubscriptionStore := ⟨.empty, .empty⟩

def clearAllSubscriptions (_ : RoseSessionSubscriptionStore) : RoseSessionSubscriptionStore :=
  ⟨.empty, .empty⟩

def clearSubscribedEvents (s : RoseSessionSubscriptionStore) (moduleIid : ℤ) :
    RoseSessionSubscriptionStore :=
  { s with subscribedEvents := s.subscribedEvents.clearModuleOpIds moduleIid }

def clearSupportedInvokes (s : RoseSessionSubscriptionStore) (moduleIid : ℤ) :
    RoseSessionSubscriptionStore :=
  { s with supportedInvokes := s.supportedInvokes.clearModuleOpIds moduleIid }

def setSubscribedEvents (s : RoseSessionSubscriptionStore) (moduleIid : ℤ)
    (eventOpIds : List ℤ) : RoseSessionSubscriptionStore :=
  { s with subscribedEvents := s.subscribedEvents.replaceModuleOpIds moduleIid eventOpIds }

def addSubscribedEvent (s : RoseSessionSubscriptionStore) (moduleIid : ℤ) (uiEventOpId : ℕ) :
    RoseSessionSubscriptionStore :=
  { s with subscribedEvents := s.subscribedEvents.addOpId moduleIid uiEventOpId }

def setSupportedInvokes (s : RoseSessionSubscriptionStore) (moduleIid : ℤ)
    (invokeOpIds : List ℤ) : RoseSessionSubscriptionStore :=
  { s with supportedInvokes := s.supportedInvokes.replaceModuleOpIds moduleIid invokeOpIds }

def addSupportedInvoke (s : RoseSessionSubscriptionStore) (moduleIid : ℤ) (uiInvokeOpId : ℕ) :
    RoseSessionSubscriptionStore :=
  { s with supportedInvokes := s.supportedInvokes.addOpId moduleIid uiInvokeOpId }

def isSubscribedEvent (s : RoseSessionSubscriptionStore) (uiEventOpId : ℕ) : Bool :=
  uiEventOpId ∈ s.subscribedEvents.flatOpIds

def isSupportedInvoke (s : RoseSessionSubscriptionStore) (uiInvokeOpId : ℕ) : Bool :=
  uiInvokeOpId ∈ s.supportedInvokes.flatOpIds

/-- A call that changes the store. Each holds the lock alone. -/
inductive Op
  | clearAllSubscriptions
  | clearSubscribedEvents (moduleIid : ℤ)
  | clearSupportedInvokes (moduleIid : ℤ)
  | setSubscribedEvents (moduleIid : ℤ) (eventOpIds : List ℤ)
  | addSubscribedEvent (moduleIid : ℤ) (uiEventOpId : ℕ)
  | setSupportedInvokes (moduleIid : ℤ) (invokeOpIds : List ℤ)
  | addSupportedInvoke (moduleIid : ℤ) (uiInvokeOpId : ℕ)
  deriving DecidableEq, Repr

def call (s : RoseSessionSubscriptionStore) : Op → RoseSessionSubscriptionStore
  | .clearAllSubscriptions => s.clearAllSubscriptions
  | .clearSubscribedEvents moduleIid => s.clearSubscribedEvents moduleIid
  | .clearSupportedInvokes moduleIid => s.clearSupportedInvokes moduleIid
  | .setSubscribedEvents moduleIid eventOpIds => s.setSubscribedEvents moduleIid eventOpIds
  | .addSubscribedEvent moduleIid uiEventOpId => s.addSubscribedEvent moduleIid uiEventOpId
  | .setSupportedInvokes moduleIid invokeOpIds => s.setSupportedInvokes moduleIid invokeOpIds
  | .addSupportedInvoke moduleIid uiInvokeOpId => s.addSupportedInvoke moduleIid uiInvokeOpId

/-- The store of a session after these calls. -/
def after (ops : List Op) : RoseSessionSubscriptionStore := ops.foldl call empty

/-- `IsSubscribedEvent` or `IsSupportedInvoke`. -/
def isSubscribed (s : RoseSessionSubscriptionStore) : Kind → ℕ → Bool
  | .event, id => s.isSubscribedEvent id
  | .invoke, id => s.isSupportedInvoke id

def sets (s : RoseSessionSubscriptionStore) : Kind → OpIdSets
  | .event => s.subscribedEvents
  | .invoke => s.supportedInvokes

/-- Some module's current set contains the id. -/
def Held (s : RoseSessionSubscriptionStore) (kind : Kind) (id : ℕ) : Prop :=
  ∃ moduleIid, id ∈ (s.sets kind).opIdsOf moduleIid

/-! ### What a call does to the sets of one kind -/

/-- What becomes of the sets of one kind. -/
inductive Change
  | keep
  | clearAll
  | replace (moduleIid : ℤ) (opIds : List ℤ)
  | add (moduleIid : ℤ) (uiOpId : ℕ)

def Change.apply (sets : OpIdSets) : Change → OpIdSets
  | .keep => sets
  | .clearAll => .empty
  | .replace moduleIid opIds => sets.replaceModuleOpIds moduleIid opIds
  | .add moduleIid uiOpId => sets.addOpId moduleIid uiOpId

/-- To clear a module is to replace its ids by none. -/
def Op.change : Op → Kind → Change
  | .clearAllSubscriptions, _ => .clearAll
  | .clearSubscribedEvents moduleIid, .event => .replace moduleIid []
  | .clearSupportedInvokes moduleIid, .invoke => .replace moduleIid []
  | .setSubscribedEvents moduleIid eventOpIds, .event => .replace moduleIid eventOpIds
  | .setSupportedInvokes moduleIid invokeOpIds, .invoke => .replace moduleIid invokeOpIds
  | .addSubscribedEvent moduleIid uiEventOpId, .event => .add moduleIid uiEventOpId
  | .addSupportedInvoke moduleIid uiInvokeOpId, .invoke => .add moduleIid uiInvokeOpId
  | _, _ => .keep

/-- The change registers the id. -/
def Change.Registers (id : ℕ) : Change → Prop
  | .replace _ opIds => id ∈ opIds.map toUint
  | .add _ uiOpId => id = uiOpId
  | _ => False

/-- The change takes the id from one module while another one holds it. -/
def Change.Withdraws (sets : OpIdSets) (id : ℕ) : Change → Prop
  | .replace moduleIid opIds => id ∉ opIds.map toUint ∧ id ∈ sets.opIdsOf moduleIid ∧
      ∃ other, other ≠ moduleIid ∧ id ∈ sets.opIdsOf other
  | _ => False

/-- One of the calls has taken the id from one of the modules that held it, and none has
registered it since. -/
def Lost (ops : List Op) (kind : Kind) (id : ℕ) : Prop :=
  ∃ pre op post, ops = pre ++ op :: post ∧
    (op.change kind).Withdraws ((after pre).sets kind) id ∧
    ∀ op' ∈ post, ¬ (op'.change kind).Registers id

theorem sets_call (s : RoseSessionSubscriptionStore) (op : Op) (kind : Kind) :
    (s.call op).sets kind = (op.change kind).apply (s.sets kind) := by
  cases op <;> cases kind <;> rfl

theorem isSubscribed_eq (s : RoseSessionSubscriptionStore) (kind : Kind) (id : ℕ) :
    s.isSubscribed kind id = decide (id ∈ (s.sets kind).flatOpIds) := by
  cases kind <;> rfl

theorem after_append (ops : List Op) (op : Op) : after (ops ++ [op]) = (after ops).call op := by
  rw [after, List.foldl_append]
  rfl

theorem lost_append (ops : List Op) (op : Op) (kind : Kind) (id : ℕ) :
    Lost (ops ++ [op]) kind id ↔
      (op.change kind).Withdraws ((after ops).sets kind) id ∨
        (Lost ops kind id ∧ ¬ (op.change kind).Registers id) := by
  constructor
  · rintro ⟨pre, op', post, heq, hwithdraws, hpost⟩
    rcases List.eq_nil_or_concat post with rfl | ⟨post, last, rfl⟩
    · obtain ⟨rfl, hop⟩ := List.append_inj' heq rfl
      obtain rfl : op = op' := List.singleton_inj.mp hop
      exact .inl hwithdraws
    · rw [List.concat_eq_append, ← List.cons_append, ← List.append_assoc] at heq
      obtain ⟨rfl, hlast⟩ := List.append_inj' heq rfl
      obtain rfl : op = last := List.singleton_inj.mp hlast
      rw [List.concat_eq_append, List.forall_mem_append] at hpost
      exact .inr ⟨⟨pre, op', post, rfl, hwithdraws, hpost.1⟩, hpost.2 _ (List.mem_singleton_self _)⟩
  · rintro (hwithdraws | ⟨⟨pre, op', post, rfl, hwithdraws, hpost⟩, hregisters⟩)
    · exact ⟨ops, op, [], rfl, hwithdraws, fun _ h => absurd h List.not_mem_nil⟩
    · refine ⟨pre, op', post ++ [op], by rw [List.append_assoc, List.cons_append], hwithdraws, ?_⟩
      rw [List.forall_mem_append]
      exact ⟨hpost, fun op'' h => List.mem_singleton.mp h ▸ hregisters⟩

namespace OpIdSets

variable (sets : OpIdSets) (moduleIid other : ℤ) (opIds : List ℤ) (id uiOpId : ℕ)

theorem mem_opIdsOf_clearModuleOpIds :
    id ∈ (sets.clearModuleOpIds moduleIid).opIdsOf other ↔
      other ≠ moduleIid ∧ id ∈ sets.opIdsOf other := by
  rw [clearModuleOpIds]
  split
  · next hnone =>
      refine ⟨fun h => ⟨?_, h⟩, And.right⟩
      rintro rfl
      rw [opIdsOf, hnone] at h
      exact absurd h (Finset.notMem_empty id)
  · by_cases hother : other = moduleIid <;> simp [opIdsOf, hother]

theorem mem_flatOpIds_clearModuleOpIds :
    id ∈ (sets.clearModuleOpIds moduleIid).flatOpIds ↔
      id ∈ sets.flatOpIds ∧ id ∉ sets.opIdsOf moduleIid := by
  rw [clearModuleOpIds]
  split
  · next hnone => simp [opIdsOf, hnone]
  · next previous hsome => simp [opIdsOf, hsome]

theorem mem_opIdsOf_replaceModuleOpIds :
    id ∈ (sets.replaceModuleOpIds moduleIid opIds).opIdsOf other ↔
      (other = moduleIid ∧ id ∈ opIds.map toUint) ∨
        (other ≠ moduleIid ∧ id ∈ sets.opIdsOf other) := by
  have hclear := mem_opIdsOf_clearModuleOpIds sets moduleIid other id
  cases opIds with
  | nil => simpa [replaceModuleOpIds] using hclear
  | cons opId opIds =>
      by_cases hother : other = moduleIid
      · simp [replaceModuleOpIds, opIdsOf, hother]
      · simpa [replaceModuleOpIds, opIdsOf, Function.update_apply, hother] using hclear

theorem mem_flatOpIds_replaceModuleOpIds :
    id ∈ (sets.replaceModuleOpIds moduleIid opIds).flatOpIds ↔
      id ∈ opIds.map toUint ∨ (id ∈ sets.flatOpIds ∧ id ∉ sets.opIdsOf moduleIid) := by
  rw [← mem_flatOpIds_clearModuleOpIds]
  cases opIds with
  | nil => simp [replaceModuleOpIds]
  | cons opId opIds =>
      simp only [replaceModuleOpIds, List.isEmpty_cons, Bool.false_eq_true, if_false,
        Finset.mem_union, List.mem_toFinset]
      exact or_comm

theorem mem_opIdsOf_addOpId :
    id ∈ (sets.addOpId moduleIid uiOpId).opIdsOf other ↔
      (other = moduleIid ∧ id = uiOpId) ∨ id ∈ sets.opIdsOf other := by
  by_cases hother : other = moduleIid
  · subst hother
    simp [addOpId, opIdsOf]
  · simp [addOpId, opIdsOf, hother]

theorem mem_flatOpIds_addOpId :
    id ∈ (sets.addOpId moduleIid uiOpId).flatOpIds ↔ id = uiOpId ∨ id ∈ sets.flatOpIds :=
  Finset.mem_insert

end OpIdSets

/-- The step of the induction: what the flat set says is right before the change, and the
change has not lost the id. -/
theorem Change.mem_flatOpIds_iff (sets : OpIdSets) (change : Change) (id : ℕ) (lost : Prop)
    (h : id ∈ sets.flatOpIds ↔ (∃ moduleIid, id ∈ sets.opIdsOf moduleIid) ∧ ¬ lost) :
    id ∈ (change.apply sets).flatOpIds ↔
      (∃ moduleIid, id ∈ (change.apply sets).opIdsOf moduleIid) ∧
        ¬ (change.Withdraws sets id ∨ (lost ∧ ¬ change.Registers id)) := by
  cases change with
  | keep => simpa [apply, Withdraws, Registers] using h
  | clearAll => simp [apply, OpIdSets.empty, OpIdSets.opIdsOf]
  | replace moduleIid opIds =>
      simp only [apply, Withdraws, Registers, OpIdSets.mem_flatOpIds_replaceModuleOpIds,
        OpIdSets.mem_opIdsOf_replaceModuleOpIds]
      by_cases hid : id ∈ opIds.map toUint
      · simp only [hid, true_or, and_true, not_true_eq_false, false_and, and_false, or_false,
          not_false_eq_true, true_iff]
        exact ⟨moduleIid, .inl rfl⟩
      · by_cases hheld : id ∈ sets.opIdsOf moduleIid
        · refine iff_of_false (by simp [hid, hheld]) ?_
          rintro ⟨⟨other, ⟨-, hmem⟩ | hother⟩, hkept⟩
          · exact hid hmem
          · -- another module that holds the id is one the change takes it from
            exact hkept (.inl ⟨hid, hheld, other, hother⟩)
        · simp only [hid, hheld, false_or, not_false_eq_true, and_true, and_false, false_and, h]
          refine and_congr_left fun _ => exists_congr fun other => ?_
          refine ⟨fun hmem => ⟨?_, hmem⟩, And.right⟩
          rintro rfl
          exact hheld hmem
  | add moduleIid uiOpId =>
      simp only [apply, Withdraws, Registers, OpIdSets.mem_opIdsOf_addOpId,
        OpIdSets.mem_flatOpIds_addOpId, h]
      by_cases hid : id = uiOpId
      · simp [hid]
      · simp [hid]

/-- The flat set holds an id exactly when some module holds it and it has not been lost. -/
theorem isSubscribed_iff (ops : List Op) (kind : Kind) (id : ℕ) :
    (after ops).isSubscribed kind id = true ↔ (after ops).Held kind id ∧ ¬ Lost ops kind id := by
  rw [isSubscribed_eq, decide_eq_true_iff]
  induction ops using List.reverseRecOn with
  | nil => cases kind <;> simp [after, empty, sets, Held, OpIdSets.empty, OpIdSets.opIdsOf]
  | append_singleton ops op ih =>
      rw [after_append, Held, sets_call, lost_append]
      exact Change.mem_flatOpIds_iff _ _ _ _ ih

/-- One module is cleared while another one holds the same id. -/
theorem not_isSubscribed_shared :
    ¬ ∀ (ops : List Op) (kind : Kind) (id : ℕ),
      (after ops).isSubscribed kind id = true ↔ (after ops).Held kind id := by
  intro h
  have hsub := (h [.addSubscribedEvent 1 7, .addSubscribedEvent 2 7, .clearSubscribedEvents 1]
    .event 7).mpr ⟨2, by decide⟩
  exact absurd hsub (by decide)

end RoseSessionSubscriptionStore

end Esnacc
