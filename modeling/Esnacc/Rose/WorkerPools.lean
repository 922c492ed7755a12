import Esnacc.Lib.Transition

/-!
The worker pools that the stubs of a process share. Threads interleave between
the critical sections of the source: a step of the model is what one thread does
while it holds a lock, or a call of a completion. The registry lock is held
across several pool locks when a stub is scanned, and is therefore part of the
state; the other locks are released in the step that takes them.

A thread is given by where it stands and by its local variables, and the threads
of a state form a multiset. What the clock, the gate of the stub and the
completions decide is a `Choice`.
-/

namespace Esnacc

namespace WorkerPools

inductive Action
  | run | shutdownReject | dropExpired
  deriving DecidableEq, Repr

inductive EnqueueResult
  | notPooled | queued | rejectedFull | poolStopped
  deriving DecidableEq, Repr

inductive FaultPolicy
  | keepWorker | retireWorker
  deriving DecidableEq, Repr

/-- `hasDeadline` stands for the deadline, `complete` and `processingAllowed`
say which callbacks are installed. -/
structure WorkItem (σ μ : Type) where
  stub : σ
  message : μ
  hasDeadline : Bool
  complete : Bool
  processingAllowed : Bool
  deriving DecidableEq, Repr

structure PoolConfig where
  name : String
  maxThreads : ℕ
  idleTimeoutMs : ℕ
  maxElements : ℕ
  faultPolicy : FaultPolicy
  operationIds : List ℕ
  deriving DecidableEq, Repr

structure PoolState (σ μ : Type) where
  name : String
  maxThreads : ℕ
  maxElements : ℕ
  idleTimeout : ℕ
  faultPolicy : FaultPolicy
  queue : List (WorkItem σ μ)
  running : ℕ
  idleWorkers : ℕ
  liveWorkers : ℕ
  stopping : Bool
  deriving DecidableEq, Repr

/-- Where a worker stands: about to lock its pool, in the wait (with the time
limit of a thread above the floor or without), with an item in its hand, inside
the completion, after it, and with the stub no longer counted. -/
inductive WorkerPhase (σ μ : Type)
  | ready
  | waiting (shrinkWhenIdle : Bool)
  | holding (item : WorkItem σ μ)
  | dispatching (stub : σ)
  | returned (stub : σ) (retire : Bool)
  | leaving (retire : Bool)
  deriving DecidableEq, Repr

/-- A worker, or a call of the interface. Shutdown goes on with the
configuration to install when it is part of `Configure`. -/
inductive Thread (σ μ : Type)
  | worker (pool : ℕ) (phase : WorkerPhase σ μ)
  | enqueue (poolName : String) (item : WorkItem σ μ)
  | offering (pool : ℕ) (item : WorkItem σ μ)
  | rejectQueuedAndWait (caller : ℕ) (stub : σ)
  | scanning (caller : ℕ) (stub : σ) (pools : List ℕ) (queued : List (WorkItem σ μ))
  | rejecting (caller : ℕ) (stub : σ) (queued : List (WorkItem σ μ))
  | awaiting (caller : ℕ) (stub : σ)
  | configure (pools : List PoolConfig)
  | shutdown (install : Option (List PoolConfig))
  | stopping (pools : List ℕ) (install : Option (List PoolConfig))
  | rejectingPool (pool : ℕ) (queued : List (WorkItem σ μ)) (pools : List ℕ)
      (install : Option (List PoolConfig))
  | joining (pool : ℕ) (pools : List ℕ) (install : Option (List PoolConfig))
  deriving DecidableEq, Repr

/-- `registry` lists the pools of `m_state->pools`, which are also those of
`poolsByName`. A stub that `inflight` maps to zero has no entry. -/
structure Shared (σ μ : Type) where
  pools : List (PoolState σ μ)
  registry : List ℕ
  registryLocked : Bool
  inflight : σ → ℕ

/-- What can be observed of a step. -/
inductive Label (σ μ : Type)
  | queued (pool : ℕ) (item : WorkItem σ μ)
  | refused (item : WorkItem σ μ) (result : EnqueueResult)
  | taken (pool : ℕ) (item : WorkItem σ μ)
  | completed (item : WorkItem σ μ) (action : Action)
  | aborted (item : WorkItem σ μ) (abandoned : List (WorkItem σ μ))
  | gateThrew (item : WorkItem σ μ)
  | notInstalled (item : WorkItem σ μ)
  | scanStarted (caller : ℕ) (stub : σ)
  | drained (caller : ℕ) (stub : σ)
  | silent
  deriving DecidableEq, Repr

/-- What a step does not determine: whether the deadline has passed, whether the
gate of the stub is open or throws, whether a completion throws, and whether a
wait ends by its time limit. -/
structure Choice where
  expired : Bool
  allowed : Bool
  gateThrows : Bool
  throws : Bool
  timedOut : Bool
  deriving DecidableEq, Repr

variable {σ μ : Type}

/-- What becomes of the shared state, the threads that take the place of the one
that acts, and what is observed. -/
abbrev Outcome (σ μ : Type) := Shared σ μ × List (Thread σ μ) × Label σ μ

def kMinLiveWorkers : ℕ := 1

namespace Shared

def setPool (sh : Shared σ μ) (p : ℕ) (pool : PoolState σ μ) : Shared σ μ :=
  { sh with pools := sh.pools.set p pool }

/-- `NoteInflight` with `delta` 1. -/
def noteStart [DecidableEq σ] (sh : Shared σ μ) (stub : σ) : Shared σ μ :=
  { sh with inflight := Function.update sh.inflight stub (sh.inflight stub + 1) }

/-- `NoteInflight` with `delta` -1. -/
def noteEnd [DecidableEq σ] (sh : Shared σ μ) (stub : σ) : Shared σ μ :=
  { sh with inflight := Function.update sh.inflight stub (sh.inflight stub - 1) }

def findByName (sh : Shared σ μ) (poolName : String) : Option ℕ :=
  sh.registry.find? fun p => (sh.pools[p]?).any fun pool => pool.name == poolName

end Shared

/-! ### Workers -/

/-- `EnsureWorker`, under the lock of the pool. -/
def ensureWorker (p : ℕ) (pool : PoolState σ μ) : PoolState σ μ × List (Thread σ μ) :=
  if pool.stopping ∨ pool.maxThreads ≤ pool.liveWorkers ∨ 0 < pool.idleWorkers ∨
      pool.queue.isEmpty then (pool, [])
  else ({ pool with liveWorkers := pool.liveWorkers + 1 }, [.worker p .ready])

/-- `ExitIdleWorker`: nothing when the worker stays. -/
def exitIdleWorker (pool : PoolState σ μ) : Option (PoolState σ μ) :=
  if pool.stopping ∨ pool.liveWorkers ≤ kMinLiveWorkers ∨ ¬ pool.queue.isEmpty then none
  else some { pool with liveWorkers := pool.liveWorkers - 1 }

/-- What a worker does after its wait, still under the lock of the pool. -/
def afterWait [DecidableEq σ] (sh : Shared σ μ) (p : ℕ) (pool : PoolState σ μ) : Outcome σ μ :=
  let pool := { pool with idleWorkers := pool.idleWorkers - 1 }
  match pool.queue with
  | [] =>
      if pool.stopping then
        (sh.setPool p { pool with liveWorkers := pool.liveWorkers - 1 }, [], .silent)
      else
        match exitIdleWorker pool with
        | some pool => (sh.setPool p pool, [], .silent)
        | none => (sh.setPool p pool, [.worker p .ready], .silent)
  | item :: queue =>
      let pool := { pool with queue := queue, running := pool.running + 1 }
      ((sh.setPool p pool).noteStart item.stub, [.worker p (.holding item)], .taken p item)

/-- The predicate of the wait. -/
def wakes (pool : PoolState σ μ) : Bool := pool.stopping || ! pool.queue.isEmpty

/-- A worker that comes to its wait blocks unless the predicate holds already. -/
def enterWait [DecidableEq σ] (sh : Shared σ μ) (p : ℕ) (pool : PoolState σ μ) : Outcome σ μ :=
  let shrinkWhenIdle := decide (kMinLiveWorkers < pool.liveWorkers ∧ 0 < pool.idleTimeout)
  let pool := { pool with idleWorkers := pool.idleWorkers + 1 }
  if wakes pool then afterWait sh p pool
  else (sh.setPool p pool, [.worker p (.waiting shrinkWhenIdle)], .silent)

/-- The call of the completion from a worker. -/
def dispatch (sh : Shared σ μ) (p : ℕ) (pool : PoolState σ μ) (item : WorkItem σ μ)
    (choice : Choice) : Outcome σ μ :=
  let retire := decide (pool.faultPolicy = .retireWorker)
  if item.processingAllowed ∧ choice.gateThrows then
    (sh, [.worker p (.returned item.stub retire)], .gateThrew item)
  else if ¬ item.complete then
    (sh, [.worker p (.returned item.stub false)], .notInstalled item)
  else
    let allowed := item.processingAllowed && choice.allowed
    let action :=
      if pool.stopping ∨ ¬ allowed then .shutdownReject
      else if item.hasDeadline ∧ choice.expired then .dropExpired else .run
    (sh, [.worker p (.dispatching item.stub)], .completed item action)

/-- `WorkerMain`. -/
def workerMain [DecidableEq σ] (sh : Shared σ μ) (p : ℕ) (pool : PoolState σ μ)
    (choice : Choice) : WorkerPhase σ μ → Option (Outcome σ μ)
  | .ready => some (enterWait sh p pool)
  | .waiting shrinkWhenIdle =>
      if wakes pool ∨ shrinkWhenIdle ∧ choice.timedOut then some (afterWait sh p pool) else none
  | .holding item => some (dispatch sh p pool item choice)
  | .dispatching stub =>
      let retire := choice.throws && decide (pool.faultPolicy = .retireWorker)
      some (sh, [.worker p (.returned stub retire)], .silent)
  | .returned stub retire => some (sh.noteEnd stub, [.worker p (.leaving retire)], .silent)
  | .leaving retire =>
      let pool := { pool with running := pool.running - 1 }
      if retire then
        let replaced := ensureWorker p { pool with liveWorkers := pool.liveWorkers - 1 }
        some (sh.setPool p replaced.1, replaced.2, .silent)
      else some (sh.setPool p pool, [.worker p .ready], .silent)

/-! ### Enqueue -/

/-- `Enqueue` under the lock of the pool it has found. -/
def offer (sh : Shared σ μ) (p : ℕ) (pool : PoolState σ μ) (item : WorkItem σ μ) : Outcome σ μ :=
  if pool.stopping then (sh, [], .refused item .poolStopped)
  else if 0 < pool.maxElements ∧ pool.maxElements ≤ pool.queue.length + pool.running then
    (sh, [], .refused item .rejectedFull)
  else
    let served := ensureWorker p { pool with queue := pool.queue ++ [item] }
    (sh.setPool p served.1, served.2, .queued p item)

/-! ### Configure and Shutdown -/

/-- One pass of the loop of `Configure`. The first of several pools of a name is
the one that counts. -/
def installPool (sh : Shared σ μ) (config : PoolConfig) : Shared σ μ × List (Thread σ μ) :=
  if (sh.findByName config.name).isSome then (sh, [])
  else
    let pool : PoolState σ μ :=
      { name := config.name
        maxThreads := max 1 config.maxThreads
        maxElements := config.maxElements
        idleTimeout := config.idleTimeoutMs
        faultPolicy := config.faultPolicy
        queue := []
        running := 0
        idleWorkers := 0
        liveWorkers := 1
        stopping := false }
    let p := sh.pools.length
    ({ sh with pools := sh.pools ++ [pool], registry := sh.registry ++ [p] }, [.worker p .ready])

def installPools (sh : Shared σ μ) : List PoolConfig → Shared σ μ × List (Thread σ μ)
  | [] => (sh, [])
  | config :: configs =>
      let installed := installPool sh config
      let others := installPools installed.1 configs
      (others.1, installed.2 ++ others.2)

/-- The call of a completion from a list of rejected items. A completion that
throws leaves the function, and what was left of the list with it. -/
def rejectItem (sh : Shared σ μ) (item : WorkItem σ μ) (queued : List (WorkItem σ μ))
    (next : Thread σ μ) (choice : Choice) : Outcome σ μ :=
  if ¬ item.complete then (sh, [next], .notInstalled item)
  else if choice.throws then (sh, [], .aborted item queued)
  else (sh, [next], .completed item .shutdownReject)

/-! ### The threads -/

/-- What a thread can do next. -/
def act [DecidableEq σ] (sh : Shared σ μ) (choice : Choice) : Thread σ μ → Option (Outcome σ μ)
  | .worker p phase => sh.pools[p]? >>= fun pool => workerMain sh p pool choice phase
  | .enqueue poolName item =>
      if sh.registryLocked then none
      else
        match sh.findByName poolName with
        | none => some (sh, [], .refused item .notPooled)
        | some p => some (sh, [.offering p item], .silent)
  | .offering p item => (sh.pools[p]?).map fun pool => offer sh p pool item
  | .rejectQueuedAndWait caller stub =>
      if sh.registryLocked then none
      else some ({ sh with registryLocked := true }, [.scanning caller stub sh.registry []],
        .scanStarted caller stub)
  | .scanning caller stub [] queued =>
      some ({ sh with registryLocked := false }, [.rejecting caller stub queued], .silent)
  | .scanning caller stub (p :: pools) queued =>
      (sh.pools[p]?).map fun pool =>
        (sh.setPool p { pool with queue := pool.queue.filter fun item => item.stub ≠ stub },
          [.scanning caller stub pools
            (queued ++ pool.queue.filter fun item => item.stub = stub)], .silent)
  | .rejecting caller stub [] => some (sh, [.awaiting caller stub], .silent)
  | .rejecting caller stub (item :: queued) =>
      some (rejectItem sh item queued (.rejecting caller stub queued) choice)
  | .awaiting caller stub =>
      if sh.inflight stub = 0 then some (sh, [], .drained caller stub) else none
  | .configure pools =>
      if (pools.flatMap PoolConfig.operationIds).Nodup then
        some (sh, [.shutdown (some pools)], .silent)
      else some (sh, [], .silent)
  | .shutdown install =>
      if sh.registryLocked then none
      else some ({ sh with registry := [] }, [.stopping sh.registry install], .silent)
  | .stopping [] none => some (sh, [], .silent)
  | .stopping [] (some pools) =>
      if sh.registryLocked then none
      else some ((installPools sh pools).1, (installPools sh pools).2, .silent)
  | .stopping (p :: pools) install =>
      (sh.pools[p]?).map fun pool =>
        (sh.setPool p { pool with queue := [], stopping := true },
          [.rejectingPool p pool.queue pools install], .silent)
  | .rejectingPool p [] pools install => some (sh, [.joining p pools install], .silent)
  | .rejectingPool p (item :: queued) pools install =>
      some (rejectItem sh item queued (.rejectingPool p queued pools install) choice)
  | .joining p pools install =>
      (sh.pools[p]?) >>= fun pool =>
        -- every worker has left its loop
        if pool.liveWorkers = 0 then some (sh, [.stopping pools install], .silent) else none

/-- The calls that can be made at any time. -/
def Thread.isCall : Thread σ μ → Bool
  | .enqueue _ _ | .rejectQueuedAndWait _ _ | .configure _ | .shutdown none => true
  | _ => false

/-- The thread that waits for a stub to be drained. -/
def Thread.caller : Thread σ μ → Option ℕ
  | .rejectQueuedAndWait caller _ | .scanning caller _ _ _ | .rejecting caller _ _
  | .awaiting caller _ => some caller
  | _ => none

structure State (σ μ : Type) where
  shared : Shared σ μ
  threads : Multiset (Thread σ μ)

/-- The registry after its construction. -/
def State.init : State σ μ := ⟨⟨[], [], false, fun _ => 0⟩, 0⟩

/-- A call is made, by a thread that is not inside another one, or a thread does
what it can do next. -/
inductive Step [DecidableEq σ] : State σ μ → Label σ μ → State σ μ → Prop
  | call {sh : Shared σ μ} {threads : Multiset (Thread σ μ)} (t : Thread σ μ)
      (hcall : t.isCall) (hcaller : ∀ t' ∈ threads, t'.caller ≠ none → t'.caller ≠ t.caller) :
      Step ⟨sh, threads⟩ .silent ⟨sh, t ::ₘ threads⟩
  | act {sh sh' : Shared σ μ} {threads : Multiset (Thread σ μ)} {t : Thread σ μ}
      {next : List (Thread σ μ)} {l : Label σ μ} (choice : Choice)
      (hact : act sh choice t = some (sh', next, l)) :
      Step ⟨sh, t ::ₘ threads⟩ l ⟨sh', ↑next + threads⟩

/-! ### Schedules -/

/-- A call that is made, or the choice for the thread at a position. -/
inductive Move (σ μ : Type)
  | call (t : Thread σ μ)
  | act (i : ℕ) (choice : Choice)

/-- One step of a schedule, with the threads in a list. -/
def move [DecidableEq σ] (sh : Shared σ μ) (threads : List (Thread σ μ)) :
    Move σ μ → Option (Label σ μ × Shared σ μ × List (Thread σ μ))
  | .call t =>
      if t.isCall ∧ ∀ t' ∈ threads, t'.caller ≠ none → t'.caller ≠ t.caller then
        some (.silent, sh, t :: threads)
      else none
  | .act i choice =>
      (threads[i]?).bind fun t =>
        (act sh choice t).map fun outcome =>
          (outcome.2.2, outcome.1, outcome.2.1 ++ threads.eraseIdx i)

/-- The labels of a schedule and the state it ends in. -/
def play [DecidableEq σ] : List (Move σ μ) → Shared σ μ × List (Thread σ μ) →
    Option (List (Label σ μ) × Shared σ μ × List (Thread σ μ))
  | [], s => some ([], s)
  | m :: moves, s =>
      (move s.1 s.2 m).bind fun next =>
        (play moves next.2).map fun last => (next.1 :: last.1, last.2)

theorem step_of_move [DecidableEq σ] {sh sh' : Shared σ μ} {threads threads' : List (Thread σ μ)}
    {m : Move σ μ} {l : Label σ μ} (h : move sh threads m = some (l, sh', threads')) :
    Step ⟨sh, ↑threads⟩ l ⟨sh', ↑threads'⟩ := by
  cases m with
  | call t =>
      simp only [move, Option.ite_none_right_eq_some] at h
      obtain ⟨⟨hcall, hcaller⟩, h⟩ := h
      cases h
      exact .call t hcall fun t' ht' => hcaller t' (Multiset.mem_coe.mp ht')
  | act i choice =>
      simp only [move, Option.bind_eq_some_iff, Option.map_eq_some_iff] at h
      obtain ⟨t, ht, ⟨sh₁, next, l₁⟩, hact, h⟩ := h
      cases h
      have hperm : (↑threads : Multiset (Thread σ μ)) = t ::ₘ ↑(threads.eraseIdx i) := by
        obtain ⟨hlt, rfl⟩ := List.getElem?_eq_some_iff.mp ht
        exact Multiset.coe_eq_coe.mpr (List.getElem_cons_eraseIdx_perm hlt).symm
      rw [hperm, ← Multiset.coe_add]
      exact .act choice hact

/-- A schedule that can be played is a run. -/
theorem run_of_play [DecidableEq σ] {moves : List (Move σ μ)} {sh sh' : Shared σ μ}
    {threads threads' : List (Thread σ μ)} {trace : List (Label σ μ)}
    (h : play moves (sh, threads) = some (trace, sh', threads')) :
    Transition.Run Step ⟨sh, ↑threads⟩ trace ⟨sh', ↑threads'⟩ := by
  induction moves generalizing sh threads trace with
  | nil =>
      cases h
      exact .nil
  | cons m moves ih =>
      simp only [play, Option.bind_eq_some_iff, Option.map_eq_some_iff] at h
      obtain ⟨⟨l, sh₁, threads₁⟩, hmove, ⟨trace₁, sh₂, threads₂⟩, hplay, h⟩ := h
      cases h
      exact (Transition.Run.single (step_of_move hmove)).trans (ih hplay)

/-- A run with a property that can be decided at the end of a schedule. -/
theorem exists_run_of_play [DecidableEq σ] {moves : List (Move σ μ)}
    {check : List (Label σ μ) → Shared σ μ → List (Thread σ μ) → Bool}
    (h : (play moves (State.init.shared, [])).any (fun r => check r.1 r.2.1 r.2.2) = true) :
    ∃ (trace : List (Label σ μ)) (sh : Shared σ μ) (threads : List (Thread σ μ)),
      Transition.Run Step .init trace ⟨sh, ↑threads⟩ ∧ check trace sh threads = true := by
  cases hplay : play moves (State.init.shared, []) with
  | none => simp [hplay] at h
  | some r =>
      rw [hplay] at h
      exact ⟨r.1, r.2.1, r.2.2, run_of_play hplay, h⟩

end WorkerPools

end Esnacc
