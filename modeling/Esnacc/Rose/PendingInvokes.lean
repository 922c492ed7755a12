import Esnacc.Rose.PendingTable
import Esnacc.Lib.Threads

/-!
The client side of `SnaccROSEBase`: the threads that send invokes and wait, the one
that hands over inbound answers, pause and resume, and the timeout watchdog.

A step is one critical section, one access of a sender to its operation, or one
call that leaves the object (the send, a completion callback). The transport, the
clock and the answers are chosen by the environment.
-/

namespace Esnacc

namespace PendingInvokes

open PendingTable

inductive Kind
  | sync | async
  deriving DecidableEq, Repr

/-- Where `SendInvokeAsync` stands between `AddPendingOperation` and `Send`. -/
inductive Setup
  | markAsync | markFireAndForget | setContext | setDeadline | countDeadline
  | ensureWatchdog | notify | notified (stopWatchdog : Bool)
  deriving DecidableEq, Repr

/-- Who called `FinishAsyncInvoke`, with the ids that are still to be finished. -/
inductive Caller
  | response
  | sender
  | pause (p : ℕ) (ids : List ℤ)
  | watchdog (ids : List ℤ)
  deriving DecidableEq, Repr

/-- `u` is the operation a thread has a reference to. -/
inductive Thread
  | issuing (kind : Kind) (iTimeout : ℤ)
  | gate (kind : Kind) (invokeID iTimeout : ℤ)
  | adding (kind : Kind) (invokeID iTimeout : ℤ)
  | settingUp (stage : Setup) (u : ℕ) (iTimeout : ℤ)
  | asyncSending (u : ℕ) (iTimeout : ℤ)
  | syncSending (u : ℕ) (iTimeout : ℤ)
  | syncWaiting (u : ℕ) (iTimeout : ℤ)
  | syncWoken (u : ℕ)
  | syncResult (u : ℕ)
  | syncAnswer (u : ℕ) (lRoseResult : RoseResult)
  | syncRemoving (u : ℕ) (lRoseResult : RoseResult)
  | response (invokeID : ℤ) (message : Message)
  | finish (invokeID : ℤ) (lRoseResult : RoseResult) (message : Option Message) (caller : Caller)
  | claimed (u : ℕ) (lRoseResult : RoseResult) (message : Option Message) (caller : Caller)
  | notifying (callback : Option (ℕ × RoseResult)) (caller : Caller)
  | notified (stopWatchdog : Bool) (callback : Option (ℕ × RoseResult)) (caller : Caller)
  | callingBack (callback : Option (ℕ × RoseResult)) (caller : Caller)
  | pause (p : ℕ)
  | completeAll (p : ℕ)
  | pauseReturning (p : ℕ)
  | resume
  | watchdogScan
  | watchdogWait (armed : Bool)
  | processTimeouts
  | watchdogExit
  deriving DecidableEq, Repr

structure Shared where
  bProcessingAllowed : Bool
  table : Table
  asyncDeadlineCount : ℕ
  watchdogStopRequested : Bool
  watchdogThreadRunning : Bool
  deriving DecidableEq, Repr

def Shared.init : Shared := ⟨true, .init, 0, false, false⟩

/-- `send` is the result of `Send`, or nothing when it throws; `expired` are the
operations whose deadline has passed; `stale` is what a sender reads as the id of an
operation that has left the table and may be freed. -/
structure Choice where
  send : Option RoseResult
  timedOut : Bool
  expired : List ℕ
  stale : ℤ
  deriving DecidableEq, Repr

inductive Label
  | issued (invokeID : ℤ)
  | refused (kind : Kind) (called : Bool)
  | added (u : ℕ) (isNew : Bool)
  | counted (u : ℕ)
  | sent (u : ℕ) (lRoseResult : Option RoseResult)
  | timedOut (u : ℕ)
  | answered (u : ℕ)
  | dropped (invokeID : ℤ)
  | finished (u : ℕ)
  | calledBack (u : ℕ) (lRoseResult : RoseResult)
  | returned (u : ℕ) (lRoseResult : RoseResult)
  | paused (p : ℕ)
  | completedAll (p : ℕ) (us : List ℕ)
  | pauseReturned (p : ℕ)
  | resumed
  | silent
  deriving DecidableEq, Repr

abbrev Outcome := Shared × List Thread × Label

/-- `ISROSE_TE`. -/
def isTransportError (lRoseResult : RoseResult) : Bool := lRoseResult % 16 != 0

/-- `HandleInvokeResult`: the result of a transport error stays as it is. -/
def handleInvokeResult (lRoseResult : RoseResult) (message : Message) : RoseResult :=
  if isTransportError lRoseResult then lRoseResult else message.decoded

namespace Shared

def setTable (sh : Shared) (t : Table) : Shared := { sh with table := t }

def modify (sh : Shared) (u : ℕ) (f : PendingOperation → PendingOperation) : Shared :=
  sh.setTable (sh.table.modify u f)

def object (sh : Shared) (u : ℕ) : Option PendingOperation := sh.table.objects[u]?

end Shared

/-- What a sender writes to its operation without a lock. -/
def Setup.write : Setup → ℤ → PendingOperation → PendingOperation
  | .markAsync, _, op => { op with bAsyncInvoke := true }
  | .markFireAndForget, iTimeout, op => { op with bFireAndForgetAsync := decide (iTimeout = 0) }
  | .setContext, _, op => { op with pAsyncContext := true }
  | .setDeadline, _, op => { op with asyncDeadline := true }
  | _, _, op => op

/-! ### Completing -/

/-- The operations in the table with a property. -/
def pendingWith (sh : Shared) (p : PendingOperation → Bool) : List ℕ :=
  sh.table.pending.filter fun u => (sh.object u).any p

def idsOf (sh : Shared) (us : List ℕ) : List ℤ := us.filterMap sh.table.idOf

/-- `CompleteAllPendingOperations`, under the lock. -/
def completeSync (sh : Shared) (us : List ℕ) : Shared :=
  us.foldl (fun sh u => sh.modify u fun op => op.complete ROSE_TE_SHUTDOWN none) sh

/-- `FinishAsyncInvoke` under the lock: the operation that leaves the table. -/
def claim (sh : Shared) (invokeID : ℤ) : Option (ℕ × Shared) :=
  (sh.table.find invokeID).bind fun u =>
    (sh.object u).bind fun op =>
      if op.bAsyncInvoke then
        let count := if op.asyncDeadline then sh.asyncDeadlineCount - 1 else sh.asyncDeadlineCount
        some (u, { sh with
          table := sh.table.removePendingOperation invokeID
          asyncDeadlineCount := count })
      else none

/-- What the caller of `FinishAsyncInvoke` does next. -/
def Caller.next : Caller → List Thread
  | .response => []
  | .sender => []
  | .pause p [] => [.pauseReturning p]
  | .pause p (id :: ids) => [.finish id ROSE_TE_SHUTDOWN none (.pause p ids)]
  | .watchdog [] => [.watchdogScan]
  | .watchdog (id :: ids) => [.finish id ROSE_TE_TIMEOUT none (.watchdog ids)]

/-- The callback that is to be called for an operation that was claimed, with its
result. -/
def callbackOf (op : PendingOperation) (u : ℕ) (lRoseResult : RoseResult)
    (message : Option Message) : Option (ℕ × RoseResult) :=
  if op.bFireAndForgetAsync ∨ ¬ op.pAsyncContext then none
  else
    match message.or op.pAnswerMessage with
    | some m => some (u, handleInvokeResult lRoseResult m)
    | none => some (u, lRoseResult)

/-! ### The threads -/

/-- `SendInvokeAsync` up to `Send`. -/
def setUp (sh : Shared) (stage : Setup) (u : ℕ) (iTimeout : ℤ) : Outcome :=
  let written := sh.modify u (stage.write iTimeout)
  match stage with
  | .markAsync => (written, [.settingUp .markFireAndForget u iTimeout], .silent)
  | .markFireAndForget => (written, [.settingUp .setContext u iTimeout], .silent)
  | .setContext =>
      (written, [if 0 < iTimeout then .settingUp .setDeadline u iTimeout
        else .asyncSending u iTimeout], .silent)
  | .setDeadline => (written, [.settingUp .countDeadline u iTimeout], .silent)
  | .countDeadline =>
      ({ sh with asyncDeadlineCount := sh.asyncDeadlineCount + 1 },
        [.settingUp .ensureWatchdog u iTimeout], .counted u)
  | .ensureWatchdog =>
      if sh.watchdogThreadRunning then (sh, [.settingUp .notify u iTimeout], .silent)
      else ({ sh with watchdogStopRequested := false, watchdogThreadRunning := true },
        [.watchdogScan, .settingUp .notify u iTimeout], .silent)
  | .notify =>
      (sh, [.settingUp (.notified (decide (sh.asyncDeadlineCount = 0))) u iTimeout], .silent)
  | .notified stopWatchdog =>
      ({ sh with watchdogStopRequested := sh.watchdogStopRequested || stopWatchdog },
        [.asyncSending u iTimeout], .silent)

/-- The end of `SendInvokeAsync`. -/
def sendAsync (sh : Shared) (u : ℕ) (invokeID iTimeout : ℤ) : Option RoseResult → Outcome
  | none => (sh, [], .sent u none)
  | some lRoseResult =>
      (sh, if iTimeout = 0 ∨ lRoseResult ≠ ROSE_NOERROR then
        [.finish invokeID lRoseResult none .sender] else [], .sent u (some lRoseResult))

/-- `SendInvoke` from `Send` on. Without a wait the result is the one of the send. -/
def sendSync (sh : Shared) (u : ℕ) (iTimeout : ℤ) : Option RoseResult → Outcome
  | none => (sh, [], .sent u none)
  | some lRoseResult =>
      if lRoseResult = ROSE_NOERROR ∧ iTimeout ≠ 0 then
        (sh, [.syncWaiting u iTimeout], .sent u (some lRoseResult))
      else
        (sh.modify u fun op => { op with lRoseResult := lRoseResult },
          [.syncAnswer u lRoseResult], .sent u (some lRoseResult))

/-- `WaitForComplete`. A negative time means no limit. -/
def wait (sh : Shared) (u : ℕ) (op : PendingOperation) (iTimeout : ℤ) (timedOut : Bool) :
    Option Outcome :=
  if op.signaled then
    some (sh.modify u fun op => { op with signaled := false }, [.syncWoken u], .silent)
  else if 0 ≤ iTimeout ∧ timedOut then
    some (sh.modify u fun op => { op with lRoseResult := ROSE_TE_TIMEOUT },
      [.syncAnswer u ROSE_TE_TIMEOUT], .timedOut u)
  else none

/-- `CompletePendingOperation`. -/
def completePendingOperation (sh : Shared) (invokeID : ℤ) (message : Message) : Outcome :=
  match sh.table.find invokeID with
  | none => (sh, [], .dropped invokeID)
  | some u =>
      if (sh.object u).any PendingOperation.bAsyncInvoke then
        (sh, [.finish invokeID message.lRoseResult (some message) .response], .silent)
      else
        (sh.modify u fun op => op.complete message.lRoseResult (some message), [], .answered u)

/-- One pass of the loop of the watchdog behind the computation of the next
deadline. -/
def watch (sh : Shared) (timedOut : Bool) : Bool → Option Outcome
  | false =>
      if sh.watchdogStopRequested ∧ sh.asyncDeadlineCount = 0 then some (sh, [.watchdogExit], .silent)
      else if sh.watchdogStopRequested ∨ 0 < sh.asyncDeadlineCount then
        some (sh, [.watchdogScan], .silent)
      else none
  | true =>
      if sh.watchdogStopRequested then
        some (sh, [if sh.asyncDeadlineCount = 0 then .watchdogExit else .watchdogScan], .silent)
      else if timedOut then some (sh, [.processTimeouts], .silent)
      else none

/-- What a thread can do next. -/
def act (sh : Shared) (choice : Choice) : Thread → Option Outcome
  | .issuing kind iTimeout =>
      let r := sh.table.getNextInvokeID
      some (sh.setTable r.2, [.gate kind r.1 iTimeout], .issued r.1)
  | .gate kind id iTimeout =>
      if sh.bProcessingAllowed then some (sh, [.adding kind id iTimeout], .silent)
      else some (sh, [], .refused kind (decide (kind = .async ∧ iTimeout ≠ 0)))
  | .adding kind id iTimeout =>
      let r := sh.table.addPendingOperation id
      some (sh.setTable r.2,
        [if kind = .sync then .syncSending r.1 iTimeout else .settingUp .markAsync r.1 iTimeout],
        .added r.1 (sh.table.find id).isNone)
  | .settingUp stage u iTimeout => some (setUp sh stage u iTimeout)
  | .asyncSending u iTimeout =>
      (sh.object u).map fun op =>
        sendAsync sh u (if u ∈ sh.table.pending then op.lInvokeID else choice.stale) iTimeout
          choice.send
  | .syncSending u iTimeout => some (sendSync sh u iTimeout choice.send)
  | .syncWaiting u iTimeout => (sh.object u).bind fun op => wait sh u op iTimeout choice.timedOut
  | .syncWoken u =>
      (sh.object u).map fun op =>
        (sh, [if op.pAnswerMessage.isSome then .syncAnswer u ROSE_NOERROR else .syncResult u],
          .silent)
  | .syncResult u => (sh.object u).map fun op => (sh, [.syncAnswer u op.lRoseResult], .silent)
  | .syncAnswer u lRoseResult =>
      (sh.object u).map fun op =>
        (sh, [.syncRemoving u (op.pAnswerMessage.elim lRoseResult
          (handleInvokeResult lRoseResult))], .silent)
  | .syncRemoving u lRoseResult =>
      (sh.object u).map fun op =>
        (sh.setTable (sh.table.removePendingOperation op.lInvokeID), [], .returned u lRoseResult)
  | .response id message => some (completePendingOperation sh id message)
  | .finish id lRoseResult message caller =>
      match claim sh id with
      | some r => some (r.2, [.claimed r.1 lRoseResult message caller], .finished r.1)
      | none => some (sh, caller.next, .silent)
  | .claimed u lRoseResult message caller =>
      (sh.object u).map fun op =>
        (sh, [.notifying (callbackOf op u lRoseResult message) caller], .silent)
  | .notifying callback caller =>
      some (sh, [.notified (decide (sh.asyncDeadlineCount = 0)) callback caller], .silent)
  | .notified stopWatchdog callback caller =>
      some ({ sh with watchdogStopRequested := sh.watchdogStopRequested || stopWatchdog },
        [.callingBack callback caller], .silent)
  | .callingBack none caller => some (sh, caller.next, .silent)
  | .callingBack (some callback) caller =>
      some (sh, caller.next, .calledBack callback.1 callback.2)
  | .pause p => some ({ sh with bProcessingAllowed := false }, [.completeAll p], .paused p)
  | .completeAll p =>
      let us := pendingWith sh fun op => !op.bAsyncInvoke
      let ids := idsOf sh (pendingWith sh PendingOperation.bAsyncInvoke)
      some (completeSync sh us, (Caller.pause p ids).next, .completedAll p us)
  | .pauseReturning p => some (sh, [], .pauseReturned p)
  | .resume => some ({ sh with bProcessingAllowed := true }, [], .resumed)
  | .watchdogScan =>
      let armed := pendingWith sh fun op => op.bAsyncInvoke && op.asyncDeadline
      some (sh, [.watchdogWait !armed.isEmpty], .silent)
  | .watchdogWait armed => watch sh choice.timedOut armed
  | .processTimeouts =>
      let us := pendingWith sh fun op => op.bAsyncInvoke && op.asyncDeadline
      let ids := idsOf sh (us.filter (· ∈ choice.expired))
      some (sh, (Caller.watchdog ids).next, .silent)
  | .watchdogExit => some ({ sh with watchdogThreadRunning := false }, [], .silent)

/-- The calls that can be made at any time. -/
def Thread.isCall : Thread → Bool
  | .issuing _ _ | .response _ _ | .pause _ | .resume => true
  | _ => false

/-- The operation that a thread has a reference to. -/
def Thread.operation : Thread → Option ℕ
  | .settingUp _ u _ | .asyncSending u _ | .syncSending u _ | .syncWaiting u _ | .syncWoken u
  | .syncResult u | .syncAnswer u _ | .syncRemoving u _ | .claimed u _ _ _ => some u
  | _ => none

/-- The number of the pause that a thread carries out. -/
def Thread.pauser : Thread → Option ℕ
  | .pause p | .completeAll p | .pauseReturning p => some p
  | .finish _ _ _ (.pause p _) | .claimed _ _ _ (.pause p _) | .notifying _ (.pause p _)
  | .notified _ _ (.pause p _) | .callingBack _ (.pause p _) => some p
  | _ => none

def system : Threads.System Shared Thread Choice Label := ⟨act, Thread.isCall, Thread.pauser, .silent⟩

abbrev State := Threads.State Shared Thread

def State.init : State := ⟨.init, 0⟩

abbrev Step : State → Label → State → Prop := Threads.Step system

/-! ### Operations -/

namespace Shared

theorem object_modify (sh : Shared) (u v : ℕ) (f : PendingOperation → PendingOperation) :
    (sh.modify u f).object v = (sh.object v).map fun op => if v = u then f op else op := by
  simp only [object, modify, setTable, Table.modify, List.getElem?_modify]
  congr 1
  funext op
  by_cases h : v = u
  · simp [h]
  · simp [h, Ne.symm h]

theorem object_modify_of_ne (sh : Shared) {u v : ℕ} (f : PendingOperation → PendingOperation)
    (h : v ≠ u) : (sh.modify u f).object v = sh.object v := by
  simp [object_modify, h]

theorem object_addPendingOperation (sh : Shared) (id : ℤ) {u : ℕ} {op : PendingOperation}
    (h : sh.object u = some op) :
    (sh.setTable (sh.table.addPendingOperation id).2).object u = some op := by
  simp only [Table.addPendingOperation]
  split
  · exact h
  · have hlt : u < sh.table.objects.length := (List.getElem?_eq_some_iff.mp h).1
    simpa [object, setTable, List.getElem?_append_left hlt] using h

end Shared

theorem mem_pendingWith {sh : Shared} {p : PendingOperation → Bool} {u : ℕ} :
    u ∈ pendingWith sh p ↔ u ∈ sh.table.pending ∧ ∃ op, sh.object u = some op ∧ p op = true := by
  rw [pendingWith, List.mem_filter]
  cases sh.object u <;> simp

theorem claim_eq_some {sh sh' : Shared} {id : ℤ} {u : ℕ} (h : claim sh id = some (u, sh')) :
    ∃ op, sh.table.find id = some u ∧ sh.object u = some op ∧ op.bAsyncInvoke = true ∧
      sh' = { sh with
        table := sh.table.removePendingOperation id
        asyncDeadlineCount :=
          if op.asyncDeadline then sh.asyncDeadlineCount - 1 else sh.asyncDeadlineCount } := by
  simp only [claim, Option.bind_eq_some_iff, Option.ite_none_right_eq_some, Option.some.injEq,
    Prod.mk.injEq] at h
  obtain ⟨v, hv, op, hop, hasync, rfl, rfl⟩ := h
  exact ⟨op, hv, hop, hasync, rfl⟩

/-- What follows a call of `FinishAsyncInvoke` refers to no operation. -/
theorem mem_next {caller : Caller} {t : Thread} (h : t ∈ caller.next) :
    (∃ p, t = .pauseReturning p) ∨ t = .watchdogScan ∨
      ∃ id lRoseResult caller', t = .finish id lRoseResult none caller' := by
  cases caller with
  | response => cases h
  | sender => cases h
  | pause p ids =>
      cases ids with
      | nil => exact .inl ⟨p, List.mem_singleton.mp h⟩
      | cons id ids => exact .inr (.inr ⟨_, _, _, List.mem_singleton.mp h⟩)
  | watchdog ids =>
      cases ids with
      | nil => exact .inr (.inl (List.mem_singleton.mp h))
      | cons id ids => exact .inr (.inr ⟨_, _, _, List.mem_singleton.mp h⟩)

/-- A stage of the setup changes the operation as it writes it, and no other. -/
theorem setUp_object (sh : Shared) (stage : Setup) (v : ℕ) (iTimeout : ℤ) (u : ℕ) :
    (setUp sh stage v iTimeout).1.object u =
      (sh.object u).map fun op => if u = v then stage.write iTimeout op else op := by
  cases stage with
  | markAsync => exact sh.object_modify v u _
  | markFireAndForget => exact sh.object_modify v u _
  | setContext => exact sh.object_modify v u _
  | setDeadline => exact sh.object_modify v u _
  | countDeadline => simp [setUp, Setup.write, Shared.object]
  | ensureWatchdog =>
      simp only [setUp]
      split <;> simp [Setup.write, Shared.object]
  | notify => simp [setUp, Setup.write]
  | notified stopWatchdog => simp [setUp, Setup.write, Shared.object]

theorem setUp_next {sh : Shared} {stage : Setup} {v : ℕ} {iTimeout : ℤ} {t : Thread}
    (h : t ∈ (setUp sh stage v iTimeout).2.1) :
    t = .watchdogScan ∨ (∃ stage', t = .settingUp stage' v iTimeout) ∨
      t = .asyncSending v iTimeout := by
  cases stage with
  | setContext =>
      simp only [setUp, List.mem_singleton] at h
      split at h
      · exact .inr (.inl ⟨_, h⟩)
      · exact .inr (.inr h)
  | ensureWatchdog =>
      simp only [setUp] at h
      split at h
      · exact .inr (.inl ⟨_, List.mem_singleton.mp h⟩)
      · rcases List.mem_cons.mp h with h | h
        · exact .inl h
        · exact .inr (.inl ⟨_, List.mem_singleton.mp h⟩)
  | notified stopWatchdog => exact .inr (.inr (List.mem_singleton.mp h))
  | markAsync => exact .inr (.inl ⟨_, List.mem_singleton.mp h⟩)
  | markFireAndForget => exact .inr (.inl ⟨_, List.mem_singleton.mp h⟩)
  | setDeadline => exact .inr (.inl ⟨_, List.mem_singleton.mp h⟩)
  | countDeadline => exact .inr (.inl ⟨_, List.mem_singleton.mp h⟩)
  | notify => exact .inr (.inl ⟨_, List.mem_singleton.mp h⟩)

/-- The watchdog changes nothing before it finds an expired deadline. -/
theorem watch_spec {sh sh' : Shared} {choice : Choice} {armed : Bool} {next : List Thread}
    {l : Label} (h : act sh choice (.watchdogWait armed) = some (sh', next, l)) :
    sh' = sh ∧ ∀ t ∈ next, t = .watchdogExit ∨ t = .watchdogScan ∨ t = .processTimeouts := by
  cases armed with
  | false =>
      simp only [act, watch] at h
      split at h
      · cases h
        exact ⟨rfl, by simp⟩
      · split at h
        · cases h
          exact ⟨rfl, by simp⟩
        · cases h
  | true =>
      simp only [act, watch] at h
      split at h
      · cases h
        refine ⟨rfl, fun t ht => ?_⟩
        rw [List.mem_singleton.mp ht]
        split <;> simp
      · split at h
        · cases h
          exact ⟨rfl, by simp⟩
        · cases h

/-- The thread whose step has a label. -/
def Label.IsOf : Label → Thread → Prop
  | .added _ _, t => ∃ kind id iTimeout, t = .adding kind id iTimeout
  | .counted u, t => ∃ iTimeout, t = .settingUp .countDeadline u iTimeout
  | .sent u _, t => ∃ iTimeout, t = .asyncSending u iTimeout ∨ t = .syncSending u iTimeout
  | .finished _, t => ∃ id lRoseResult message caller, t = .finish id lRoseResult message caller
  | .calledBack u lRoseResult, t => ∃ caller, t = .callingBack (some (u, lRoseResult)) caller
  | .returned u lRoseResult, t => t = .syncRemoving u lRoseResult
  | .paused p, t => t = .pause p
  | .completedAll p _, t => t = .completeAll p
  | .pauseReturned p, t => t = .pauseReturning p
  | .resumed, t => t = .resume
  | _, _ => True

theorem setUp_label (sh : Shared) (stage : Setup) (u : ℕ) (iTimeout : ℤ) :
    (setUp sh stage u iTimeout).2.2 = if stage = .countDeadline then .counted u else .silent := by
  cases stage with
  | ensureWatchdog =>
      simp only [setUp]
      split <;> simp
  | _ => rfl

theorem label_isOf {sh sh' : Shared} {choice : Choice} {t : Thread} {next : List Thread}
    {l : Label} (h : act sh choice t = some (sh', next, l)) : l.IsOf t := by
  cases t with
  | settingUp stage u iTimeout =>
      obtain rfl : _ = l := congrArg (·.2.2) (Option.some.inj h)
      rw [setUp_label]
      split
      · next heq => exact ⟨iTimeout, by rw [heq]⟩
      · trivial
  | asyncSending u iTimeout =>
      simp only [act, Option.map_eq_some_iff] at h
      obtain ⟨op, -, h⟩ := h
      cases hsend : choice.send <;> rw [hsend] at h <;> cases h <;> exact ⟨iTimeout, .inl rfl⟩
  | syncSending u iTimeout =>
      simp only [act] at h
      cases hsend : choice.send with
      | none =>
          rw [hsend] at h
          cases h
          exact ⟨iTimeout, .inr rfl⟩
      | some r =>
          rw [hsend] at h
          simp only [sendSync] at h
          split at h <;> cases h <;> exact ⟨iTimeout, .inr rfl⟩
  | callingBack callback caller =>
      cases callback <;> cases h
      · trivial
      · exact ⟨caller, rfl⟩
  | gate kind id iTimeout =>
      simp only [act] at h
      split at h <;> cases h <;> trivial
  | syncWaiting u iTimeout =>
      simp only [act, Option.bind_eq_some_iff, wait] at h
      obtain ⟨op, -, h⟩ := h
      split at h
      · cases h
        trivial
      · split at h
        · cases h
          trivial
        · cases h
  | response id message =>
      simp only [act, Option.some.injEq, completePendingOperation] at h
      split at h
      · cases h
        trivial
      · split at h <;> cases h <;> trivial
  | finish id r message caller =>
      simp only [act] at h
      split at h <;> cases h
      · exact ⟨id, r, message, caller, rfl⟩
      · trivial
  | watchdogWait armed =>
      obtain rfl : l = .silent := by
        cases armed <;> simp only [act, watch] at h <;> repeat' split at h
        all_goals first | cases h; rfl | cases h
      trivial
  | adding kind id iTimeout =>
      cases h
      exact ⟨kind, id, iTimeout, rfl⟩
  | syncWoken u =>
      simp only [act, Option.map_eq_some_iff] at h
      obtain ⟨op, -, h⟩ := h
      cases h
      trivial
  | syncResult u =>
      simp only [act, Option.map_eq_some_iff] at h
      obtain ⟨op, -, h⟩ := h
      cases h
      trivial
  | syncAnswer u r =>
      simp only [act, Option.map_eq_some_iff] at h
      obtain ⟨op, -, h⟩ := h
      cases h
      trivial
  | syncRemoving u r =>
      simp only [act, Option.map_eq_some_iff] at h
      obtain ⟨op, -, h⟩ := h
      cases h
      rfl
  | claimed u r message caller =>
      simp only [act, Option.map_eq_some_iff] at h
      obtain ⟨op, -, h⟩ := h
      cases h
      trivial
  | issuing | notifying | notified | watchdogScan | processTimeouts | watchdogExit =>
      cases h
      trivial
  | pause | completeAll | pauseReturning | resume =>
      cases h
      rfl

end PendingInvokes

end Esnacc
