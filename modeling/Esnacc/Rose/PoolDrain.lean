import Esnacc.Rose.PoolAccounting

/-!
`RejectQueuedAndWait`: whether a stub is left alone once the call has returned.
The call empties the queues of the registered pools and waits for the workers
that hold a message of the stub. It does not see the pools that a concurrent
shutdown has taken out of the registry, nor the lists of that shutdown; without
messages of the stub there, and without a new one, the stub stays untouched.
-/

namespace Esnacc

namespace WorkerPools

open Transition

variable {σ μ : Type}

/-! ### What a thread holds of a stub -/

/-- One for a worker that is counted for the stub. -/
def Thread.busyFor [DecidableEq σ] (stub : σ) : Thread σ μ → ℕ
  | .worker _ (.holding item) => if item.stub = stub then 1 else 0
  | .worker _ (.dispatching other) | .worker _ (.returned other _) =>
      if other = stub then 1 else 0
  | _ => 0

/-- The list of messages that a shutdown has taken from a pool. -/
def Thread.shutdownList : Thread σ μ → List (WorkItem σ μ)
  | .rejectingPool _ queued _ _ => queued
  | _ => []

/-- The pools that a shutdown has still to stop. -/
def Thread.stops : Thread σ μ → List ℕ
  | .stopping pools _ | .rejectingPool _ _ pools _ | .joining _ pools _ => pools
  | _ => []

/-- One for a thread that holds the registry lock. -/
def Thread.scans : Thread σ μ → ℕ
  | .scanning _ _ _ _ => 1
  | _ => 0

/-- One for a thread inside the `RejectQueuedAndWait` of a caller. -/
def Thread.isOf (caller : ℕ) (t : Thread σ μ) : ℕ := if t.caller = some caller then 1 else 0

/-- One while the registry lock is held. -/
def Shared.lock (sh : Shared σ μ) : ℕ := if sh.registryLocked then 1 else 0

/-- What a step does to locks, callers and shutdowns. -/
structure ActFrame (sh sh' : Shared σ μ) (t : Thread σ μ) (next : List (Thread σ μ)) : Prop where
  lock : (t.scans = 1 → sh.registryLocked = true) →
    sh.lock + total Thread.scans next = sh'.lock + t.scans
  callers : ∀ caller, total (Thread.isOf caller) next ≤ t.isOf caller
  stops : ∀ u ∈ next, ∀ p ∈ u.stops, p ∈ t.stops ∨
    p ∈ sh.registry ∧ sh'.registry = [] ∧ sh.registryLocked = false
  registry : ∀ p ∈ sh'.registry, p ∈ sh.registry ∨ sh.pools.length ≤ p
  lists : ∀ u ∈ next, ∀ item ∈ u.shutdownList, item ∈ t.shutdownList ∨
    ∃ p ∈ t.stops, ∃ pool, sh.pools[p]? = some pool ∧ item ∈ pool.queue

/-- A step that leaves only workers behind. -/
theorem ActFrame.of_workers {sh sh' : Shared σ μ} {t : Thread σ μ} {next : List (Thread σ μ)}
    (hscans : t.scans = 0) (hregistry : ∀ p ∈ sh'.registry, p ∈ sh.registry ∨ sh.pools.length ≤ p)
    (hlock : sh'.registryLocked = sh.registryLocked)
    (hnext : ∀ u ∈ next, ∃ p phase, u = .worker p phase) : ActFrame sh sh' t next := by
  have htotal : ∀ f : Thread σ μ → ℕ, (∀ p phase, f (.worker p phase) = 0) →
      total f next = 0 := by
    intro f hf
    refine List.sum_eq_zero fun n hn => ?_
    obtain ⟨u, hu, rfl⟩ := List.mem_map.mp hn
    obtain ⟨p, phase, rfl⟩ := hnext u hu
    exact hf p phase
  refine ⟨fun _ => ?_, fun caller => ?_, ?_, hregistry, ?_⟩
  · rw [htotal _ fun _ _ => rfl, Shared.lock, Shared.lock, hlock, hscans]
  · rw [htotal _ fun _ _ => by simp [Thread.isOf, Thread.caller]]
    exact Nat.zero_le _
  · intro u hu
    obtain ⟨p, phase, rfl⟩ := hnext u hu
    simp [Thread.stops]
  · intro u hu
    obtain ⟨p, phase, rfl⟩ := hnext u hu
    simp [Thread.shutdownList]

theorem installPools_frame (configs : List PoolConfig) (sh : Shared σ μ) :
    (∀ p ∈ (installPools sh configs).1.registry, p ∈ sh.registry ∨ sh.pools.length ≤ p) ∧
      (installPools sh configs).1.registryLocked = sh.registryLocked ∧
      (installPools sh configs).1.inflight = sh.inflight ∧
      sh.pools.length ≤ (installPools sh configs).1.pools.length ∧
      ∀ u ∈ (installPools sh configs).2, ∃ p, u = .worker p .ready := by
  induction configs generalizing sh with
  | nil => simp +contextual [installPools]
  | cons config configs ih =>
      obtain ⟨hregistry, hlock, hinflight, hlen, hnext⟩ := ih (installPool sh config).1
      have hfirst : (∀ p ∈ (installPool sh config).1.registry,
            p ∈ sh.registry ∨ sh.pools.length ≤ p) ∧
          (installPool sh config).1.registryLocked = sh.registryLocked ∧
          (installPool sh config).1.inflight = sh.inflight ∧
          sh.pools.length ≤ (installPool sh config).1.pools.length ∧
          ∀ u ∈ (installPool sh config).2, ∃ p, u = .worker p .ready := by
        unfold installPool
        split
        · exact ⟨fun p hp => .inl hp, rfl, rfl, le_rfl, by simp⟩
        · refine ⟨fun p hp => ?_, rfl, rfl, by simp, by simp⟩
          rcases List.mem_append.mp hp with hp | hp
          · exact .inl hp
          · exact .inr (List.mem_singleton.mp hp).ge
      obtain ⟨hregistry', hlock', hinflight', hlen', hnext'⟩ := hfirst
      refine ⟨fun p hp => ?_, hlock.trans hlock', hinflight.trans hinflight', hlen'.trans hlen,
        fun u hu => ?_⟩
      · rcases hregistry p hp with hp | hp
        · exact hregistry' p hp
        · exact .inr (hlen'.trans hp)
      · rcases List.mem_append.mp hu with hu | hu
        · exact hnext' u hu
        · exact hnext u hu

variable [DecidableEq σ]

theorem act_frame {sh sh' : Shared σ μ} {choice : Choice} {t : Thread σ μ}
    {next : List (Thread σ μ)} {l : Label σ μ} (h : act sh choice t = some (sh', next, l)) :
    ActFrame sh sh' t next := by
  cases t with
  | worker p phase =>
      simp only [act, Option.bind_eq_bind, Option.bind_eq_some_iff] at h
      obtain ⟨pool, hpool, h⟩ := h
      obtain ⟨hsame, hlock, hworkers⟩ := workerMain_frame h
      refine .of_workers rfl (fun q hq => .inl (hsame ▸ hq)) hlock fun u hu => ?_
      obtain ⟨phase, rfl⟩ := hworkers u hu
      exact ⟨p, phase, rfl⟩
  | enqueue poolName item =>
      simp only [act, Option.ite_none_left_eq_some] at h
      obtain ⟨-, h⟩ := h
      split at h <;> cases h <;> constructor <;>
        simp +contextual [Thread.scans, Thread.isOf, Thread.caller, Thread.stops,
          Thread.shutdownList]
  | offering p item =>
      simp only [act, Option.map_eq_some_iff, offer] at h
      obtain ⟨pool, hpool, h⟩ := h
      split at h
      · cases h
        exact .of_workers rfl (fun q hq => .inl hq) rfl (by simp)
      · split at h
        · cases h
          exact .of_workers rfl (fun q hq => .inl hq) rfl (by simp)
        · simp only [Prod.mk.injEq] at h
          obtain ⟨rfl, rfl, rfl⟩ := h
          refine .of_workers rfl (fun q hq => .inl hq) rfl fun u hu => ?_
          obtain ⟨phase, rfl⟩ := ensureWorker_workers u hu
          exact ⟨p, phase, rfl⟩
  | rejectQueuedAndWait caller stub =>
      simp only [act, Option.ite_none_left_eq_some] at h
      obtain ⟨hlock, h⟩ := h
      cases h
      constructor <;>
        simp [Thread.scans, Thread.isOf, Thread.caller, Thread.stops, Thread.shutdownList,
          Shared.lock, hlock]
      exact fun p hp => Or.inl hp
  | scanning caller stub pools queued =>
      cases pools with
      | nil =>
          cases h
          constructor <;>
            simp +contextual [Thread.scans, Thread.isOf, Thread.caller, Thread.stops,
              Thread.shutdownList, Shared.lock]
      | cons p pools =>
          simp only [act, Option.map_eq_some_iff] at h
          obtain ⟨pool, hpool, h⟩ := h
          cases h
          constructor <;>
            simp +contextual [Thread.scans, Thread.isOf, Thread.caller, Thread.stops,
              Thread.shutdownList, Shared.lock, Shared.setPool]
  | rejecting caller stub queued =>
      cases queued with
      | nil =>
          cases h
          constructor <;>
            simp +contextual [Thread.scans, Thread.isOf, Thread.caller, Thread.stops,
              Thread.shutdownList]
      | cons item queued =>
          simp only [act, rejectItem, Option.some.injEq] at h
          split_ifs at h <;> cases h <;> constructor <;>
            simp +contextual [Thread.scans, Thread.isOf, Thread.caller, Thread.stops,
              Thread.shutdownList]
  | awaiting caller stub =>
      simp only [act, Option.ite_none_right_eq_some] at h
      cases h.2
      exact .of_workers rfl (fun q hq => .inl hq) rfl (by simp)
  | configure pools =>
      simp only [act] at h
      split at h <;> cases h <;> constructor <;>
        simp +contextual [Thread.scans, Thread.isOf, Thread.caller, Thread.stops,
          Thread.shutdownList]
  | shutdown install =>
      simp only [act, Option.ite_none_left_eq_some] at h
      obtain ⟨hlock, h⟩ := h
      cases h
      constructor <;>
        simp +contextual [Thread.scans, Thread.isOf, Thread.caller, Thread.stops,
          Thread.shutdownList, Shared.lock, hlock]
  | stopping pools install =>
      rcases pools with _ | ⟨p, pools⟩
      · cases install with
        | none =>
            cases h
            exact .of_workers rfl (fun q hq => .inl hq) rfl (by simp)
        | some configs =>
            simp only [act, Option.ite_none_left_eq_some] at h
            cases h.2
            obtain ⟨hregistry, hlock, -, -, hnext⟩ := installPools_frame configs sh
            refine .of_workers rfl hregistry hlock fun u hu => ?_
            obtain ⟨p, rfl⟩ := hnext u hu
            exact ⟨p, _, rfl⟩
      · simp only [act, Option.map_eq_some_iff] at h
        obtain ⟨pool, hpool, h⟩ := h
        cases h
        constructor <;>
          simp +contextual [Thread.scans, Thread.isOf, Thread.caller, Thread.stops,
            Thread.shutdownList, Shared.lock, Shared.setPool]
        · rfl
        · exact fun item hitem => Or.inl ⟨pool, hpool, hitem⟩
  | rejectingPool p queued pools install =>
      cases queued with
      | nil =>
          cases h
          constructor <;>
            simp +contextual [Thread.scans, Thread.isOf, Thread.caller, Thread.stops,
              Thread.shutdownList]
      | cons item queued =>
          simp only [act, rejectItem, Option.some.injEq] at h
          split_ifs at h <;> cases h <;> constructor <;>
            simp +contextual [Thread.scans, Thread.isOf, Thread.caller, Thread.stops,
              Thread.shutdownList]
  | joining p pools install =>
      simp only [act, Option.bind_eq_bind, Option.bind_eq_some_iff,
        Option.ite_none_right_eq_some] at h
      obtain ⟨pool, -, -, h⟩ := h
      cases h
      constructor <;>
        simp +contextual [Thread.scans, Thread.isOf, Thread.caller, Thread.stops,
          Thread.shutdownList]

/-! ### The count of the workers of a stub -/

/-- One for a step that takes a message of the stub out of a queue. -/
def Label.takesFor (stub : σ) : Label σ μ → ℕ
  | .taken _ item => if item.stub = stub then 1 else 0
  | _ => 0

theorem Thread.busyFor_holding (p : ℕ) (item : WorkItem σ μ) (stub : σ) :
    (Thread.worker p (.holding item)).busyFor stub = if item.stub = stub then 1 else 0 := rfl

/-- The workers of a stub are counted, and only a message from a queue adds
one. -/
structure BusyStep (stub : σ) (sh sh' : Shared σ μ) (t : Thread σ μ) (next : List (Thread σ μ))
    (l : Label σ μ) : Prop where
  count : sh'.inflight stub + t.busyFor stub = sh.inflight stub + total (Thread.busyFor stub) next
  taken : total (Thread.busyFor stub) next ≤ t.busyFor stub + l.takesFor stub

theorem BusyStep.of_idle {stub : σ} {sh sh' : Shared σ μ} {t : Thread σ μ}
    {next : List (Thread σ μ)} {l : Label σ μ} (hsame : sh'.inflight = sh.inflight)
    (hidle : total (Thread.busyFor stub) next = t.busyFor stub) :
    BusyStep stub sh sh' t next l :=
  ⟨by rw [hsame, hidle], by omega⟩

theorem afterWait_busy {p : ℕ} {pool : PoolState σ μ} {sh : Shared σ μ} (stub : σ)
    {phase : WorkerPhase σ μ} (hphase : (Thread.worker p phase).busyFor stub = 0) :
    BusyStep stub sh (afterWait sh p pool).1 (.worker p phase) (afterWait sh p pool).2.1
      (afterWait sh p pool).2.2 := by
  unfold afterWait
  dsimp only
  split
  · split
    · exact .of_idle rfl hphase.symm
    · split <;> exact .of_idle rfl hphase.symm
  · rename_i item queue hqueue
    by_cases hstub : item.stub = stub
    · constructor <;>
        simp [Shared.noteStart, Shared.setPool, Thread.busyFor_holding, Label.takesFor, hstub,
          hphase]
    · constructor <;>
        simp [Shared.noteStart, Shared.setPool, Thread.busyFor_holding, hstub, hphase,
          Function.update_of_ne (Ne.symm hstub)]

theorem workerMain_busy {p : ℕ} {pool : PoolState σ μ} {sh sh' : Shared σ μ} {choice : Choice}
    {phase : WorkerPhase σ μ} {next : List (Thread σ μ)} {l : Label σ μ}
    (h : workerMain sh p pool choice phase = some (sh', next, l)) (stub : σ)
    (hle : (Thread.worker p phase).busyFor stub ≤ sh.inflight stub) :
    BusyStep stub sh sh' (.worker p phase) next l := by
  cases phase with
  | ready =>
      simp only [workerMain, enterWait, Option.some.injEq] at h
      split at h
      · have hcount := @afterWait_busy σ μ _ p
          { pool with idleWorkers := pool.idleWorkers + 1 } sh stub .ready rfl
        rwa [h] at hcount
      · cases h
        exact .of_idle rfl rfl
  | waiting shrink =>
      have hcount := @afterWait_busy σ μ _ p pool sh stub (.waiting shrink) rfl
      simp only [workerMain, Option.ite_none_right_eq_some, Option.some.injEq] at h
      rwa [h.2] at hcount
  | holding item =>
      simp only [workerMain, dispatch, Option.some.injEq] at h
      split at h
      · cases h
        exact .of_idle rfl rfl
      · split at h <;> cases h <;> exact .of_idle rfl rfl
  | dispatching other =>
      cases h
      exact .of_idle rfl rfl
  | returned other retire =>
      cases h
      by_cases hstub : other = stub
      · simp only [Thread.busyFor, hstub, if_true] at hle
        constructor
        · simp [Shared.noteEnd, Thread.busyFor, hstub]
          omega
        · simp [Thread.busyFor]
      · constructor <;>
          simp [Shared.noteEnd, Thread.busyFor, hstub, Function.update_of_ne (Ne.symm hstub)]
  | leaving retire =>
      cases retire with
      | false =>
          cases h
          exact .of_idle rfl rfl
      | true =>
          simp only [workerMain, if_true, Option.some.injEq, Prod.mk.injEq] at h
          obtain ⟨rfl, rfl, rfl⟩ := h
          unfold ensureWorker
          split <;> exact .of_idle rfl rfl

theorem act_busy {sh sh' : Shared σ μ} {choice : Choice} {t : Thread σ μ}
    {next : List (Thread σ μ)} {l : Label σ μ} (h : act sh choice t = some (sh', next, l))
    (stub : σ) (hle : t.busyFor stub ≤ sh.inflight stub) :
    BusyStep stub sh sh' t next l := by
  cases t with
  | worker p phase =>
      simp only [act, Option.bind_eq_bind, Option.bind_eq_some_iff] at h
      obtain ⟨pool, hpool, h⟩ := h
      exact workerMain_busy h stub hle
  | enqueue poolName item =>
      simp only [act, Option.ite_none_left_eq_some] at h
      obtain ⟨-, h⟩ := h
      split at h <;> cases h <;> exact .of_idle rfl rfl
  | offering p item =>
      simp only [act, Option.map_eq_some_iff, offer] at h
      obtain ⟨pool, hpool, h⟩ := h
      split at h
      · cases h
        exact .of_idle rfl rfl
      · split at h
        · cases h
          exact .of_idle rfl rfl
        · simp only [Prod.mk.injEq] at h
          obtain ⟨rfl, rfl, rfl⟩ := h
          unfold ensureWorker
          split <;> exact .of_idle rfl rfl
  | rejectQueuedAndWait caller other =>
      simp only [act, Option.ite_none_left_eq_some] at h
      cases h.2
      exact .of_idle rfl rfl
  | scanning caller other pools queued =>
      cases pools with
      | nil =>
          cases h
          exact .of_idle rfl rfl
      | cons p pools =>
          simp only [act, Option.map_eq_some_iff] at h
          obtain ⟨pool, hpool, h⟩ := h
          cases h
          exact .of_idle rfl rfl
  | rejecting caller other queued =>
      cases queued with
      | nil =>
          cases h
          exact .of_idle rfl rfl
      | cons item queued =>
          simp only [act, rejectItem, Option.some.injEq] at h
          split_ifs at h <;> cases h <;> exact .of_idle rfl rfl
  | awaiting caller other =>
      simp only [act, Option.ite_none_right_eq_some] at h
      cases h.2
      exact .of_idle rfl rfl
  | configure pools =>
      simp only [act] at h
      split at h <;> cases h <;> exact .of_idle rfl rfl
  | shutdown install =>
      simp only [act, Option.ite_none_left_eq_some] at h
      cases h.2
      exact .of_idle rfl rfl
  | stopping pools install =>
      rcases pools with _ | ⟨p, pools⟩
      · cases install with
        | none =>
            cases h
            exact .of_idle rfl rfl
        | some configs =>
            simp only [act, Option.ite_none_left_eq_some] at h
            cases h.2
            obtain ⟨-, -, hinflight, -, hnext⟩ := installPools_frame configs sh
            have hbusy : total (Thread.busyFor stub) (installPools sh configs).2 = 0 := by
              refine List.sum_eq_zero fun n hn => ?_
              obtain ⟨u, hu, rfl⟩ := List.mem_map.mp hn
              obtain ⟨p, rfl⟩ := hnext u hu
              rfl
            exact .of_idle hinflight hbusy
      · simp only [act, Option.map_eq_some_iff] at h
        obtain ⟨pool, hpool, h⟩ := h
        cases h
        exact .of_idle rfl rfl
  | rejectingPool p queued pools install =>
      cases queued with
      | nil =>
          cases h
          exact .of_idle rfl rfl
      | cons item queued =>
          simp only [act, rejectItem, Option.some.injEq] at h
          split_ifs at h <;> cases h <;> exact .of_idle rfl rfl
  | joining p pools install =>
      simp only [act, Option.bind_eq_bind, Option.bind_eq_some_iff,
        Option.ite_none_right_eq_some] at h
      obtain ⟨pool, -, -, h⟩ := h
      cases h
      exact .of_idle rfl rfl

/-! ### Invariants of the registry -/

/-- The sum of a count over the threads. -/
def count (f : Thread σ μ → ℕ) (threads : Multiset (Thread σ μ)) : ℕ := (threads.map f).sum

omit [DecidableEq σ] in
theorem count_cons (f : Thread σ μ → ℕ) (t : Thread σ μ) (ts : Multiset (Thread σ μ)) :
    count f (t ::ₘ ts) = f t + count f ts := sum_map_cons f t ts

omit [DecidableEq σ] in
theorem count_next (f : Thread σ μ → ℕ) (next : List (Thread σ μ)) (ts : Multiset (Thread σ μ)) :
    count f ((next : Multiset (Thread σ μ)) + ts) = total f next + count f ts :=
  sum_map_next f next ts

omit [DecidableEq σ] in
theorem le_count (f : Thread σ μ → ℕ) {t : Thread σ μ} {ts : Multiset (Thread σ μ)} (h : t ∈ ts) :
    f t ≤ count f ts :=
  Multiset.single_le_sum (fun _ _ => Nat.zero_le _) _ (Multiset.mem_map_of_mem f h)

/-- The registry lock has one owner, a caller is inside one call, a pool that is
being stopped is not registered, and the workers of a stub are counted. -/
structure DrainInv (s : State σ μ) : Prop where
  lock : count Thread.scans s.threads = s.shared.lock
  callers : ∀ caller, count (Thread.isOf caller) s.threads ≤ 1
  stops : ∀ t ∈ s.threads, ∀ p ∈ t.stops, p ∉ s.shared.registry
  busy : ∀ stub, s.shared.inflight stub = count (Thread.busyFor stub) s.threads

omit [DecidableEq σ] in
theorem visits_of_stops {t : Thread σ μ} {p : ℕ} (h : p ∈ t.stops) : p ∈ t.visits := by
  cases t <;> simp_all [Thread.stops, Thread.visits]

omit [DecidableEq σ] in
theorem locked_of_lock {sh : Shared σ μ} (h : 1 ≤ sh.lock) : sh.registryLocked = true := by
  by_contra hlock
  simp [Shared.lock, hlock] at h

theorem drainInv_step {s s' : State σ μ} {l : Label σ μ} (h : DrainInv s) (hrefs : RefsInv s)
    (hstep : Step s l s') : DrainInv s' := by
  cases hstep with
  | @call sh threads t hcall hcaller =>
      have hidle : t.scans = 0 ∧ t.stops = [] ∧ ∀ stub, t.busyFor stub = 0 := by
        cases t <;> simp_all [Thread.isCall, Thread.scans, Thread.stops, Thread.busyFor]
      refine ⟨?_, fun caller => ?_, fun u hu => ?_, fun stub => ?_⟩
      · rw [count_cons, hidle.1, zero_add]
        exact h.lock
      · rw [count_cons]
        by_cases ht : t.caller = some caller
        · have hnone : count (Thread.isOf caller) threads = 0 := by
            refine Multiset.sum_eq_zero fun n hn => ?_
            obtain ⟨u, hu, rfl⟩ := Multiset.mem_map.mp hn
            refine if_neg fun hu' => ?_
            exact hcaller u hu (by simp [hu']) (hu'.trans ht.symm)
          rw [hnone, Thread.isOf, if_pos ht]
        · rw [Thread.isOf, if_neg ht, zero_add]
          exact h.callers caller
      · rcases Multiset.mem_cons.mp hu with rfl | hu
        · simp [hidle.2.1]
        · exact h.stops u hu
      · rw [count_cons, hidle.2.2, zero_add]
        exact h.busy stub
  | @act sh sh' threads t next l choice hact =>
      have hframe := act_frame hact
      have hlock := h.lock
      have hcallers := h.callers
      have hbusy := h.busy
      simp only [count_cons] at hlock hcallers hbusy
      have hstops := fun u hu => h.stops u (Multiset.mem_cons_of_mem hu)
      refine ⟨?_, fun caller => ?_, fun u hu p hp hreg => ?_, fun stub => ?_⟩
      · have hchange := hframe.lock fun hone => locked_of_lock (by rw [← hlock, hone]; omega)
        simp only [count_next]
        omega
      · simp only [count_next]
        have h₁ := hframe.callers caller
        have h₂ := hcallers caller
        omega
      · -- a pool that is being stopped was registered before, or is older than every new one
        have hlt : ∀ q ∈ sh'.registry, q ∈ sh.registry ∨ sh.pools.length ≤ q := hframe.registry
        have hold : ∀ v ∈ t ::ₘ threads, p ∈ v.stops → False := by
          intro v hv hpv
          rcases hlt p hreg with hreg | hreg
          · exact h.stops v hv p hpv hreg
          · have := hrefs.threads v hv p (visits_of_stops hpv)
            simp only at this
            omega
        rcases Multiset.mem_add.mp hu with hu | hu
        · rcases hframe.stops u hu p hp with hp | ⟨-, hempty, -⟩
          · exact hold t (Multiset.mem_cons_self t threads) hp
          · simp [hempty] at hreg
        · exact hold u (Multiset.mem_cons_of_mem hu) hp
      · have hle : t.busyFor stub ≤ sh.inflight stub := by
          rw [hbusy stub]
          exact Nat.le_add_right _ _
        have hchange := (act_busy hact stub hle).count
        have hb := hbusy stub
        simp only [count_next]
        omega

theorem drainInv_run {trace : List (Label σ μ)} {s : State σ μ} (h : Run Step .init trace s) :
    DrainInv s := by
  have hboth : RefsInv s ∧ DrainInv s := by
    refine @Run.state_invariant _ _ _ _ _ _ (fun s => RefsInv s ∧ DrainInv s) h ?_ ?_
    · refine ⟨⟨by simp [State.init], by simp [State.init]⟩, ⟨rfl, ?_, ?_, fun _ => rfl⟩⟩
      · exact fun _ => Nat.zero_le _
      · simp [State.init]
    · exact fun s l s' hinv hstep => ⟨refsInv_step hinv.1 hstep, drainInv_step hinv.2 hinv.1 hstep⟩
  exact hboth.2

/-! ### Pools without messages of a stub -/

/-- None of the pools with `P` has a message of the stub in its queue. -/
def QueuesClear (P : ℕ → Prop) (sh : Shared σ μ) (stub : σ) : Prop :=
  ∀ p pool, P p → sh.pools[p]? = some pool → ∀ item ∈ pool.queue, item.stub ≠ stub

/-- No shutdown has a message of the stub in its list. -/
def ListsClear (threads : Multiset (Thread σ μ)) (stub : σ) : Prop :=
  ∀ t ∈ threads, ∀ item ∈ t.shutdownList, item.stub ≠ stub

/-- The step enqueues a message of the stub. -/
def Label.enqueues (stub : σ) : Label σ μ → Prop
  | .queued _ item => item.stub = stub
  | _ => False

omit [DecidableEq σ] in
theorem stub_of_enqueuedAt {l : Label σ μ} {p : ℕ} {item : WorkItem σ μ} {stub : σ}
    (h : item ∈ l.enqueuedAt p) (hl : ¬ l.enqueues stub) : item.stub ≠ stub := by
  cases l with
  | queued q other =>
      simp only [Label.enqueuedAt] at h
      split at h
      · rw [List.mem_singleton.mp h]
        exact hl
      · cases h
  | _ => cases h

theorem queuesClear_act {P : ℕ → Prop} {sh sh' : Shared σ μ} {choice : Choice} {t : Thread σ μ}
    {next : List (Thread σ μ)} {l : Label σ μ} {stub : σ}
    (hact : act sh choice t = some (sh', next, l)) (hl : ¬ l.enqueues stub)
    (h : QueuesClear P sh stub) : QueuesClear P sh' stub := by
  intro q other hq hother item hitem
  rcases act_spec hact with ⟨p, pool, pool', hpool, hset, hchange⟩ | ⟨hsame, hquiet⟩ |
    ⟨configs, rfl, rfl, rfl, rfl⟩
  · rw [hset] at hother
    by_cases hqp : q = p
    · obtain rfl := hqp
      rw [List.getElem?_set_self (List.getElem?_eq_some_iff.mp hpool).1] at hother
      cases hother
      rcases List.mem_append.mp (hchange.order.subset (List.mem_append_right _ hitem)) with hi | hi
      · exact h q pool hq hpool item hi
      · exact stub_of_enqueuedAt hi hl
    · rw [List.getElem?_set_ne (Ne.symm hqp)] at hother
      exact h q other hq hother item hitem
  · rw [hsame] at hother
    exact h q other hq hother item hitem
  · obtain ⟨added, hadded, hfresh, -⟩ := installPools_spec configs sh
    rw [hadded] at hother
    rcases List.mem_append.mp (List.mem_of_getElem? hother) with hmem | hmem
    · by_cases hlt : q < sh.pools.length
      · rw [List.getElem?_append_left hlt] at hother
        exact h q other hq hother item hitem
      · rw [List.getElem?_append_right (by omega)] at hother
        simp [(hfresh other (List.mem_of_getElem? hother)).queue] at hitem
    · simp [(hfresh other hmem).queue] at hitem

theorem listsClear_act {P : ℕ → Prop} {sh sh' : Shared σ μ} {choice : Choice} {t : Thread σ μ}
    {threads : Multiset (Thread σ μ)} {next : List (Thread σ μ)} {l : Label σ μ} {stub : σ}
    (hact : act sh choice t = some (sh', next, l)) (hstops : ∀ p ∈ t.stops, P p)
    (hqueues : QueuesClear P sh stub) (h : ListsClear (t ::ₘ threads) stub) :
    ListsClear ((next : Multiset (Thread σ μ)) + threads) stub := by
  intro u hu item hitem
  rcases Multiset.mem_add.mp hu with hu | hu
  · rcases (act_frame hact).lists u hu item hitem with hi | ⟨p, hp, pool, hpool, hi⟩
    · exact h t (Multiset.mem_cons_self t threads) item hi
    · exact hqueues p pool (hstops p hp) hpool item hi
  · exact h u (Multiset.mem_cons_of_mem hu) item hitem

/-! ### One call of RejectQueuedAndWait -/

/-- The pools that the scan of a caller has still to visit. -/
def Thread.scansFor (caller : ℕ) : Thread σ μ → Option (List ℕ)
  | .scanning c _ pools _ => if c = caller then some pools else none
  | .rejecting c _ _ | .awaiting c _ => if c = caller then some [] else none
  | _ => none

/-- The step begins a scan of the caller. -/
def Label.startsScanOf (caller : ℕ) : Label σ μ → Prop
  | .scanStarted c _ => c = caller
  | _ => False

/-- Labels that only a call of `RejectQueuedAndWait` produces. -/
def Label.ofCall : Label σ μ → Bool
  | .scanStarted _ _ | .drained _ _ => true
  | _ => false

theorem workerMain_label {p : ℕ} {pool : PoolState σ μ} {sh sh' : Shared σ μ} {choice : Choice}
    {phase : WorkerPhase σ μ} {next : List (Thread σ μ)} {l : Label σ μ}
    (h : workerMain sh p pool choice phase = some (sh', next, l)) : l.ofCall = false := by
  have hafter : ∀ pool : PoolState σ μ, (afterWait sh p pool).2.2.ofCall = false := by
    intro pool
    unfold afterWait
    dsimp only
    split
    · split
      · rfl
      · split <;> rfl
    · rfl
  cases phase with
  | ready =>
      simp only [workerMain, enterWait, Option.some.injEq] at h
      split at h
      · have hlabel := hafter { pool with idleWorkers := pool.idleWorkers + 1 }
        rwa [h] at hlabel
      · cases h
        rfl
  | waiting shrink =>
      simp only [workerMain, Option.ite_none_right_eq_some, Option.some.injEq] at h
      have hlabel := hafter pool
      rwa [h.2] at hlabel
  | holding item =>
      simp only [workerMain, dispatch, Option.some.injEq] at h
      split at h
      · cases h
        rfl
      · split at h <;> cases h <;> rfl
  | dispatching stub =>
      cases h
      rfl
  | returned stub retire =>
      cases h
      rfl
  | leaving retire =>
      cases retire with
      | false =>
          cases h
          rfl
      | true =>
          simp only [workerMain, if_true, Option.some.injEq, Prod.mk.injEq] at h
          rw [← h.2.2]
          rfl

/-- Who produces such a label, and what becomes of the scan of a caller. -/
theorem act_call {sh sh' : Shared σ μ} {choice : Choice} {t : Thread σ μ}
    {next : List (Thread σ μ)} {l : Label σ μ} (h : act sh choice t = some (sh', next, l)) :
    (∀ caller stub, l = .scanStarted caller stub → t = .rejectQueuedAndWait caller stub) ∧
      (∀ caller stub, l = .drained caller stub → t = .awaiting caller stub) ∧
      ∀ u ∈ next, ∀ caller pools, u.scansFor caller = some pools →
        l.startsScanOf caller ∨ t.scansFor caller = some pools ∨
          ∃ stub p queued, t = .scanning caller stub (p :: pools) queued := by
  cases t with
  | worker p phase =>
      simp only [act, Option.bind_eq_bind, Option.bind_eq_some_iff] at h
      obtain ⟨pool, hpool, h⟩ := h
      have hlabel := workerMain_label h
      refine ⟨?_, ?_, fun u hu caller pools hscan => ?_⟩
      · rintro caller stub rfl
        cases hlabel
      · rintro caller stub rfl
        cases hlabel
      · obtain ⟨phase, rfl⟩ := (workerMain_frame h).2.2 u hu
        cases hscan
  | enqueue poolName item =>
      simp only [act, Option.ite_none_left_eq_some] at h
      obtain ⟨-, h⟩ := h
      split at h <;> cases h <;> simp [Thread.scansFor]
  | offering p item =>
      simp only [act, Option.map_eq_some_iff, offer] at h
      obtain ⟨pool, hpool, h⟩ := h
      split at h
      · cases h
        simp
      · split at h
        · cases h
          simp
        · simp only [Prod.mk.injEq] at h
          obtain ⟨rfl, rfl, rfl⟩ := h
          refine ⟨by simp, by simp, fun u hu caller pools hscan => ?_⟩
          obtain ⟨phase, rfl⟩ := ensureWorker_workers u hu
          cases hscan
  | rejectQueuedAndWait caller stub =>
      simp only [act, Option.ite_none_left_eq_some] at h
      cases h.2
      simp +contextual [Thread.scansFor, Label.startsScanOf]
  | scanning caller stub pools queued =>
      cases pools with
      | nil =>
          cases h
          simp +contextual [Thread.scansFor]
      | cons p pools =>
          simp only [act, Option.map_eq_some_iff] at h
          obtain ⟨pool, hpool, h⟩ := h
          cases h
          simp +contextual [Thread.scansFor]
  | rejecting caller stub queued =>
      cases queued with
      | nil =>
          cases h
          simp +contextual [Thread.scansFor]
      | cons item queued =>
          simp only [act, rejectItem, Option.some.injEq] at h
          split_ifs at h <;> cases h <;> simp +contextual [Thread.scansFor]
  | awaiting caller stub =>
      simp only [act, Option.ite_none_right_eq_some] at h
      cases h.2
      simp +contextual
  | configure pools =>
      simp only [act] at h
      split at h <;> cases h <;> simp [Thread.scansFor]
  | shutdown install =>
      simp only [act, Option.ite_none_left_eq_some] at h
      cases h.2
      simp [Thread.scansFor]
  | stopping pools install =>
      rcases pools with _ | ⟨p, pools⟩
      · cases install with
        | none =>
            cases h
            simp
        | some configs =>
            simp only [act, Option.ite_none_left_eq_some] at h
            cases h.2
            refine ⟨by simp, by simp, fun u hu caller pools hscan => ?_⟩
            obtain ⟨p, rfl⟩ := (installPools_frame configs sh).2.2.2.2 u hu
            cases hscan
      · simp only [act, Option.map_eq_some_iff] at h
        obtain ⟨pool, hpool, h⟩ := h
        cases h
        simp [Thread.scansFor]
  | rejectingPool p queued pools install =>
      cases queued with
      | nil =>
          cases h
          simp [Thread.scansFor]
      | cons item queued =>
          simp only [act, rejectItem, Option.some.injEq] at h
          split_ifs at h <;> cases h <;> simp [Thread.scansFor]
  | joining p pools install =>
      simp only [act, Option.bind_eq_bind, Option.bind_eq_some_iff,
        Option.ite_none_right_eq_some] at h
      obtain ⟨pool, -, -, h⟩ := h
      cases h
      simp [Thread.scansFor]

/-- While the call of `caller` is under way, messages of the stub are only in
the pools that its scan has still to visit. -/
structure Draining (caller : ℕ) (stub : σ) (todo : List ℕ) (s : State σ μ) : Prop where
  queues : QueuesClear (· ∉ todo) s.shared stub
  lists : ListsClear s.threads stub
  stops : ∀ t ∈ s.threads, ∀ p ∈ t.stops, p ∉ todo
  scanner : todo ≠ [] → ∃ queued, .scanning caller stub todo queued ∈ s.threads
  phases : ∀ t ∈ s.threads, ∀ pools, t.scansFor caller = some pools → pools = todo

omit [DecidableEq σ] in
theorem isOf_of_scansFor {t : Thread σ μ} {caller : ℕ} {pools : List ℕ}
    (h : t.scansFor caller = some pools) : t.isOf caller = 1 := by
  cases t <;> simp_all [Thread.scansFor, Thread.isOf, Thread.caller]

theorem draining_step {s s' : State σ μ} {l : Label σ μ} {caller : ℕ} {stub : σ} {todo : List ℕ}
    (h : Draining caller stub todo s) (hinv : DrainInv s) (hstep : Step s l s')
    (hqueue : ¬ l.enqueues stub) (hscan : ¬ l.startsScanOf caller) :
    ∃ todo', Draining caller stub todo' s' := by
  cases hstep with
  | @call sh threads t hcall hcaller =>
      have hidle : t.shutdownList = [] ∧ t.stops = [] ∧ t.scansFor caller = none := by
        cases t <;> simp_all [Thread.isCall, Thread.shutdownList, Thread.stops, Thread.scansFor]
      refine ⟨todo, h.queues, fun u hu => ?_, fun u hu => ?_, fun hne => ?_, fun u hu => ?_⟩
      · rcases Multiset.mem_cons.mp hu with rfl | hu
        · simp [hidle.1]
        · exact h.lists u hu
      · rcases Multiset.mem_cons.mp hu with rfl | hu
        · simp [hidle.2.1]
        · exact h.stops u hu
      · obtain ⟨queued, hmem⟩ := h.scanner hne
        exact ⟨queued, Multiset.mem_cons_of_mem hmem⟩
      · rcases Multiset.mem_cons.mp hu with rfl | hu
        · simp [hidle.2.2]
        · exact h.phases u hu
  | @act sh sh' threads t next l choice hact =>
      obtain ⟨-, -, hscans⟩ := act_call hact
      have ht := Multiset.mem_cons_self t threads
      have hcallers := hinv.callers caller
      have hlock := hinv.lock
      simp only [count_cons] at hcallers hlock
      -- the acting thread does not belong to the call, or is the scanner itself
      rcases todo with _ | ⟨p, pools⟩
      · refine ⟨[], queuesClear_act hact hqueue h.queues,
          listsClear_act hact (fun _ _ => List.not_mem_nil) h.queues h.lists, by simp, by simp,
          fun u hu pools hu' => ?_⟩
        rcases Multiset.mem_add.mp hu with hu | hu
        · rcases hscans u hu caller pools hu' with hstart | hsame | ⟨other, q, queued, rfl⟩
          · exact absurd hstart hscan
          · exact h.phases t ht pools hsame
          · cases h.phases _ ht (q :: pools) (if_pos rfl)
        · exact h.phases u (Multiset.mem_cons_of_mem hu) pools hu'
      · obtain ⟨queued, hours⟩ := h.scanner (List.cons_ne_nil p pools)
        rcases Multiset.mem_cons.mp hours with rfl | hours
        · -- the scanner empties one more pool
          simp only [act, Option.map_eq_some_iff] at hact
          obtain ⟨pool, hpool, hact⟩ := hact
          cases hact
          have hone : (Thread.scanning caller stub (p :: pools) queued).isOf caller = 1 := by
            simp [Thread.isOf, Thread.caller]
          refine ⟨pools, fun q other hq hother item hitem => ?_, fun u hu => ?_, fun u hu => ?_,
            fun _ => ⟨_, Multiset.mem_add.mpr (.inl (Multiset.mem_coe.mpr
              (List.mem_singleton_self _)))⟩, fun u hu pools' hu' => ?_⟩
          · simp only [Shared.setPool] at hother
            by_cases hqp : q = p
            · obtain rfl := hqp
              rw [List.getElem?_set_self (List.getElem?_eq_some_iff.mp hpool).1] at hother
              cases hother
              simpa using (List.mem_filter.mp hitem).2
            · rw [List.getElem?_set_ne (Ne.symm hqp)] at hother
              exact h.queues q other (by simp [hqp, hq]) hother item hitem
          · rcases Multiset.mem_add.mp hu with hu | hu
            · rw [List.mem_singleton.mp (Multiset.mem_coe.mp hu)]
              simp [Thread.shutdownList]
            · exact h.lists u (Multiset.mem_cons_of_mem hu)
          · rcases Multiset.mem_add.mp hu with hu | hu
            · rw [List.mem_singleton.mp (Multiset.mem_coe.mp hu)]
              simp [Thread.stops]
            · exact fun q hq hmem =>
                h.stops u (Multiset.mem_cons_of_mem hu) q hq (List.mem_cons_of_mem p hmem)
          · rcases Multiset.mem_add.mp hu with hu | hu
            · rw [List.mem_singleton.mp (Multiset.mem_coe.mp hu)] at hu'
              simpa [Thread.scansFor, eq_comm] using hu'
            · have hle := le_count (Thread.isOf caller) hu
              rw [isOf_of_scansFor hu'] at hle
              omega
        · -- another thread acts while the scanner holds the registry lock
          have hscanner := le_count Thread.scans hours
          have hlocked : sh.registryLocked = true :=
            locked_of_lock (by simp only [Thread.scans] at hscanner; omega)
          have hidle : t.isOf caller = 0 := by
            have hle := le_count (Thread.isOf caller) hours
            simp only [Thread.isOf, Thread.caller, if_true] at hle hcallers ⊢
            omega
          refine ⟨p :: pools, queuesClear_act hact hqueue h.queues,
            listsClear_act hact (h.stops t ht) h.queues h.lists, fun u hu q hq => ?_,
            fun _ => ⟨queued, Multiset.mem_add.mpr (.inr hours)⟩, fun u hu pools' hu' => ?_⟩
          · rcases Multiset.mem_add.mp hu with hu | hu
            · rcases (act_frame hact).stops u hu q hq with hq | ⟨-, -, hfree⟩
              · exact h.stops t ht q hq
              · simp [hlocked] at hfree
            · exact h.stops u (Multiset.mem_cons_of_mem hu) q hq
          · rcases Multiset.mem_add.mp hu with hu | hu
            · rcases hscans u hu caller pools' hu' with hstart | hsame | ⟨other, q, queued', rfl⟩
              · exact absurd hstart hscan
              · simp [isOf_of_scansFor hsame] at hidle
              · simp [Thread.isOf, Thread.caller] at hidle
            · exact h.phases u (Multiset.mem_cons_of_mem hu) pools' hu'

/-- No message of the stub is in a pool or in the list of a shutdown, and no
worker is at one. -/
structure Untouched (stub : σ) (s : State σ μ) : Prop where
  queues : QueuesClear (fun _ => True) s.shared stub
  lists : ListsClear s.threads stub
  workers : count (Thread.busyFor stub) s.threads = 0

theorem untouched_step {s s' : State σ μ} {l : Label σ μ} {stub : σ} (h : Untouched stub s)
    (hinv : DrainInv s) (hstep : Step s l s') (hqueue : ¬ l.enqueues stub) : Untouched stub s' := by
  cases hstep with
  | @call sh threads t hcall hcaller =>
      have hidle : t.shutdownList = [] ∧ t.busyFor stub = 0 := by
        cases t <;> simp_all [Thread.isCall, Thread.shutdownList, Thread.busyFor]
      refine ⟨h.queues, fun u hu => ?_, ?_⟩
      · rcases Multiset.mem_cons.mp hu with rfl | hu
        · simp [hidle.1]
        · exact h.lists u hu
      · rw [count_cons, hidle.2, zero_add]
        exact h.workers
  | @act sh sh' threads t next l choice hact =>
      have hworkers := h.workers
      simp only [count_cons] at hworkers
      have hbusy := act_busy hact stub (by omega)
      have htakes : l.takesFor stub = 0 := by
        cases l with
        | taken p item =>
            refine if_neg fun hstub => ?_
            -- what a worker takes was in the queue
            have hmem : ∃ pool, sh.pools[p]? = some pool ∧ item ∈ pool.queue := by
              rcases act_spec hact with ⟨q, pool, pool', hpool, hset, hchange⟩ | ⟨-, hquiet⟩ |
                ⟨configs, -, -, -, hl⟩
              · by_cases hq : p = q
                · obtain rfl := hq
                  have hsub := hchange.order.subset (a := item)
                    (List.mem_append_left _ (by simp [Label.takenAt]))
                  exact ⟨pool, hpool, by simpa [Label.enqueuedAt] using hsub⟩
                · have hnone := (hchange.elsewhere p hq).2.2.2.2.1
                  simp [Label.takenAt] at hnone
              · have hnone := (hquiet.elsewhere p).2.2.2.2.1
                simp [Label.takenAt] at hnone
              · cases hl
            obtain ⟨pool, hpool, hitem⟩ := hmem
            exact h.queues p pool trivial hpool item hitem hstub
        | _ => rfl
      have htaken := hbusy.taken
      refine ⟨queuesClear_act hact hqueue h.queues,
        listsClear_act hact (fun _ _ => trivial) h.queues h.lists, ?_⟩
      simp only [count_next]
      omega

/-- No message of the stub is with a shutdown: neither in a pool that has been
taken out of the registry nor in the list of a pool that is being stopped. -/
def ClearOfShutdown (stub : σ) (s : State σ μ) : Prop :=
  QueuesClear (· ∉ s.shared.registry) s.shared stub ∧ ListsClear s.threads stub

theorem draining_of_scanStarted {s s' : State σ μ} {caller : ℕ} {stub : σ} (hinv : DrainInv s)
    (hclear : ClearOfShutdown stub s) (hstep : Step s (.scanStarted caller stub) s') :
    Draining caller stub s.shared.registry s' := by
  generalize hl : Label.scanStarted caller stub = l at hstep
  cases hstep with
  | call t hcall hcaller => cases hl
  | @act sh sh' threads t next l choice hact =>
      obtain rfl := (act_call hact).1 caller stub hl.symm
      simp only [act, Option.ite_none_left_eq_some] at hact
      cases hact.2
      have hone : (Thread.rejectQueuedAndWait caller stub : Thread σ μ).isOf caller = 1 := by
        simp [Thread.isOf, Thread.caller]
      have hcallers := hinv.callers caller
      simp only [count_cons] at hcallers
      refine ⟨hclear.1, fun u hu => ?_, fun u hu => ?_, fun _ => ⟨[], Multiset.mem_add.mpr
        (.inl (Multiset.mem_coe.mpr (List.mem_singleton_self _)))⟩, fun u hu pools hu' => ?_⟩
      · rcases Multiset.mem_add.mp hu with hu | hu
        · rw [List.mem_singleton.mp (Multiset.mem_coe.mp hu)]
          simp [Thread.shutdownList]
        · exact hclear.2 u (Multiset.mem_cons_of_mem hu)
      · rcases Multiset.mem_add.mp hu with hu | hu
        · rw [List.mem_singleton.mp (Multiset.mem_coe.mp hu)]
          simp [Thread.stops]
        · exact hinv.stops u (Multiset.mem_cons_of_mem hu)
      · rcases Multiset.mem_add.mp hu with hu | hu
        · rw [List.mem_singleton.mp (Multiset.mem_coe.mp hu)] at hu'
          simpa [Thread.scansFor, eq_comm] using hu'
        · have hle := le_count (Thread.isOf caller) hu
          rw [isOf_of_scansFor hu'] at hle
          omega

theorem untouched_of_return {s s' : State σ μ} {caller : ℕ} {stub : σ} {todo : List ℕ}
    (hinv : DrainInv s) (hdrain : Draining caller stub todo s)
    (hstep : Step s (.drained caller stub) s') : Untouched stub s' := by
  generalize hl : Label.drained caller stub = l at hstep
  cases hstep with
  | call t hcall hcaller => cases hl
  | @act sh sh' threads t next l choice hact =>
      obtain rfl := (act_call hact).2.1 caller stub hl.symm
      simp only [act, Option.ite_none_right_eq_some] at hact
      obtain ⟨hzero, hact⟩ := hact
      cases hact
      obtain rfl : [] = todo := hdrain.phases _ (Multiset.mem_cons_self _ _) [] (if_pos rfl)
      have hbusy := hinv.busy stub
      rw [hzero, count_cons] at hbusy
      refine ⟨fun p pool _ => hdrain.queues p pool List.not_mem_nil, fun u hu => ?_, ?_⟩
      · exact hdrain.lists u (Multiset.mem_cons_of_mem (by simpa using hu))
      · rw [count_next, total_nil]
        omega

/-- What happens after the call of the caller has returned. -/
def afterDrain (trace : List (Label ℕ ℕ)) (caller stub : ℕ) : List (Label ℕ ℕ) :=
  trace.dropWhile fun l => decide (l ≠ .drained caller stub)

end WorkerPools

end Esnacc
