import Mathlib

/-!
The pending invokes of `TSASN1Base`. They are found by their invoke id, which comes from a
counter that starts again; a timer knows the id of its invoke, not its entry. Calls are numbered
in the order in which they get an id.
-/

namespace Esnacc.Ts

/-- An entry of the map: the call it belongs to, and whether it has a timer. -/
structure PendingInvoke where
  call : ℕ
  timerID : Bool
  deriving DecidableEq, Repr

/-- The map from invoke ids to entries. -/
abbrev PendingInvokes := List (ℤ × PendingInvoke)

namespace PendingInvokes

def get (m : PendingInvokes) (id : ℤ) : Option PendingInvoke :=
  (m.find? fun e => e.1 = id).map Prod.snd

def delete (m : PendingInvokes) (id : ℤ) : PendingInvokes := m.filter fun e => e.1 ≠ id

def set (m : PendingInvokes) (id : ℤ) (pending : PendingInvoke) : PendingInvokes :=
  m.delete id ++ [(id, pending)]

theorem mem_delete {m : PendingInvokes} {id : ℤ} {e : ℤ × PendingInvoke} :
    e ∈ m.delete id ↔ e ∈ m ∧ e.1 ≠ id := by
  simp [delete]

theorem mem_set {m : PendingInvokes} {id : ℤ} {p : PendingInvoke} {e : ℤ × PendingInvoke} :
    e ∈ m.set id p ↔ e ∈ m ∧ e.1 ≠ id ∨ e = (id, p) := by
  simp [set, mem_delete]

theorem mem_of_get {m : PendingInvokes} {id : ℤ} {p : PendingInvoke} (h : m.get id = some p) :
    (id, p) ∈ m := by
  obtain ⟨e, he, rfl⟩ := Option.map_eq_some_iff.1 h
  have hkey := List.find?_some he
  simp only [decide_eq_true_eq] at hkey
  rw [← hkey]
  exact List.mem_of_find?_eq_some he

theorem get_eq_none {m : PendingInvokes} {id : ℤ} : m.get id = none ↔ ∀ e ∈ m, e.1 ≠ id := by
  simp [get]

theorem nodup_delete {m : PendingInvokes} (h : (m.map Prod.fst).Nodup) (id : ℤ) :
    ((m.delete id).map Prod.fst).Nodup :=
  h.sublist (List.filter_sublist.map Prod.fst)

theorem nodup_set {m : PendingInvokes} (h : (m.map Prod.fst).Nodup) (id : ℤ) (p : PendingInvoke) :
    ((m.set id p).map Prod.fst).Nodup := by
  rw [set, List.map_append, List.nodup_append]
  refine ⟨nodup_delete h id, List.nodup_singleton _, ?_⟩
  intro key hkey key' hkey' heq
  obtain ⟨e, he, rfl⟩ := List.mem_map.1 hkey
  rw [List.map_singleton, List.mem_singleton] at hkey'
  exact (mem_delete.1 he).2 (heq.trans hkey')

/-- Entries with one key are one entry. -/
theorem eq_of_key {m : PendingInvokes} (h : (m.map Prod.fst).Nodup) {e e' : ℤ × PendingInvoke}
    (he : e ∈ m) (he' : e' ∈ m) (hkey : e.1 = e'.1) : e = e' :=
  List.inj_on_of_nodup_map h he he' hkey

theorem get_of_mem {m : PendingInvokes} (h : (m.map Prod.fst).Nodup) {e : ℤ × PendingInvoke}
    (he : e ∈ m) : m.get e.1 = some e.2 := by
  cases hget : m.get e.1 with
  | none => exact absurd rfl (get_eq_none.1 hget e he)
  | some p => exact congrArg (fun e => some e.2) (eq_of_key h (mem_of_get hget) he rfl)

end PendingInvokes

/-- The three kinds of answers to an invoke. -/
inductive Answer
  | result
  | error
  | reject
  deriving DecidableEq, Repr

/-- What settles a promise: a message from the other side, the failure to send the invoke of a
call, the timer of a call, or a shutdown. -/
inductive Cause (κ : Type)
  | answer (source : κ) (kind : Answer) (invokeID : ℤ)
  | unsent (call : ℕ)
  | timeout (call : ℕ)
  | shutdown
  deriving DecidableEq, Repr

/-- A call that has got an id: whom it is for, and whether it has been pending. -/
structure Call (κ : Type) where
  id : ℤ
  target : κ
  pending : Bool
  deriving DecidableEq, Repr

/-- The fields of `TSASN1Base` that are used, the timers that have not expired, and what has
happened so far. -/
structure Stub (κ : Type) where
  invokeCounter : ℤ
  roseProcessingAllowed : Bool
  pendingInvokes : PendingInvokes
  timers : List ℕ
  calls : List (Call κ)
  settled : List (ℕ × Cause κ)
  deriving DecidableEq, Repr

namespace Stub

variable {κ : Type}

def init : Stub κ := ⟨0, true, [], [], [], []⟩

/-- The counter afterwards is the id. -/
def getNextInvokeID (s : Stub κ) : Stub κ :=
  let invokeCounter := s.invokeCounter + 1
  { s with invokeCounter := if 99998 < invokeCounter then 0 else invokeCounter }

def idOf (s : Stub κ) (call : ℕ) : Option ℤ := (s.calls[call]?).map Call.id

/-- The timer of an entry is cleared and its promise settled. -/
def complete (s : Stub κ) (pending : PendingInvoke) (cause : Cause κ) : Stub κ :=
  { s with
    timers := if pending.timerID then s.timers.filter (· ≠ pending.call) else s.timers
    settled := s.settled ++ [(pending.call, cause)] }

/-- What `onROSEResult`, `onROSEError` and `onROSEReject` do. -/
def take (s : Stub κ) (invokeID : ℤ) (cause : Cause κ) : Stub κ :=
  match s.pendingInvokes.get invokeID with
  | none => s
  | some pending =>
      { s with pendingInvokes := s.pendingInvokes.delete invokeID }.complete pending cause

def onROSEResult (s : Stub κ) (source : κ) (invokeID : ℤ) : Stub κ :=
  s.take invokeID (.answer source .result invokeID)

def onROSEError (s : Stub κ) (source : κ) (invokedID : ℤ) : Stub κ :=
  s.take invokedID (.answer source .error invokedID)

def onROSEReject (s : Stub κ) (source : κ) (invokedID : Option ℤ) : Stub κ :=
  match invokedID with
  | none => s
  | some invokedID => s.take invokedID (.answer source .reject invokedID)

/-- `complete_timedout` does nothing for an entry without a timer, but the entry is gone. -/
def onROSETimeout (s : Stub κ) (id : ℤ) (call : ℕ) : Stub κ :=
  match s.pendingInvokes.get id with
  | none => s
  | some pending =>
      let s := { s with pendingInvokes := s.pendingInvokes.delete id }
      if pending.timerID then s.complete pending (.timeout call) else s

def completeAllPendingOperations (s : Stub κ) : Stub κ :=
  { s.pendingInvokes.foldl (fun s e => s.complete e.2 .shutdown) s with pendingInvokes := [] }

def pauseRoseProcessing (s : Stub κ) : Stub κ :=
  { s with roseProcessingAllowed := false }.completeAllPendingOperations

def resumeRoseProcessing (s : Stub κ) : Stub κ := { s with roseProcessingAllowed := true }

/-- A call that gets no entry. -/
def withoutEntry (s : Stub κ) (target : κ) : Stub κ :=
  { s with calls := s.calls ++ [⟨s.invokeCounter, target, false⟩] }

/-- The timer is started, and the entry is put into the map. -/
def withEntry (s : Stub κ) (target : κ) (timer : Bool) : Stub κ :=
  { s with
    pendingInvokes := s.pendingInvokes.set s.invokeCounter ⟨s.calls.length, timer⟩
    timers := if timer then s.timers ++ [s.calls.length] else s.timers
    calls := s.calls ++ [⟨s.invokeCounter, target, true⟩] }

/-- A timer expires. -/
def expire (s : Stub κ) (call : ℕ) : Stub κ :=
  match s.idOf call with
  | none => s
  | some id => { s with timers := s.timers.filter (· ≠ call) }.onROSETimeout id call

end Stub

end Esnacc.Ts
