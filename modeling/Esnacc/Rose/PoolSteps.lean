import Esnacc.Rose.WorkerPools

/-!
What one step can do to the worker pools, said once. A step changes at most one
pool; the invariants of the pools, the account of the messages and the order of
the queues are all derived from the description of that change.
-/

namespace Esnacc

namespace WorkerPools

variable {σ μ : Type}

/-! ### What threads and labels hold -/

/-- The messages that a thread has taken and not yet passed on. -/
def Thread.items : Thread σ μ → Multiset (WorkItem σ μ)
  | .worker _ (.holding item) => {item}
  | .scanning _ _ _ queued | .rejecting _ _ queued | .rejectingPool _ queued _ _ => ↑queued
  | _ => 0

/-- One for a worker of the pool. -/
def Thread.worksFor (p : ℕ) : Thread σ μ → ℕ
  | .worker q _ => if q = p then 1 else 0
  | _ => 0

/-- One for a worker that is blocked in the wait of the pool. -/
def Thread.waitsFor (p : ℕ) : Thread σ μ → ℕ
  | .worker q (.waiting _) => if q = p then 1 else 0
  | _ => 0

@[simp] theorem Thread.worksFor_self (p : ℕ) (phase : WorkerPhase σ μ) :
    (Thread.worker p phase).worksFor p = 1 := if_pos rfl

@[simp] theorem Thread.waitsFor_self (p : ℕ) (shrink : Bool) :
    (Thread.worker p (.waiting shrink) : Thread σ μ).waitsFor p = 1 := if_pos rfl

namespace Label

/-- The message that was accepted. -/
def accepted : Label σ μ → Multiset (WorkItem σ μ)
  | .queued _ item => {item}
  | _ => 0

/-- The message that was passed to a completion. -/
def completedItems : Label σ μ → Multiset (WorkItem σ μ)
  | .completed item _ | .aborted item _ => {item}
  | _ => 0

/-- The messages that were dropped without a completion. -/
def lost : Label σ μ → Multiset (WorkItem σ μ)
  | .aborted _ abandoned => ↑abandoned
  | .gateThrew item | .notInstalled item => {item}
  | _ => 0

/-- The message that entered the queue of a pool. -/
def enqueuedAt (p : ℕ) : Label σ μ → List (WorkItem σ μ)
  | .queued q item => if q = p then [item] else []
  | _ => []

/-- The message that a worker took out of the queue of a pool. -/
def takenAt (p : ℕ) : Label σ μ → List (WorkItem σ μ)
  | .taken q item => if q = p then [item] else []
  | _ => []

end Label

/-! ### The counters of a pool -/

/-- With `workers` threads, of which `waiting` are blocked, the counters are
right, and a pool with something to do has somebody to do it. -/
structure PoolInv (pool : PoolState σ μ) (workers waiting : ℕ) : Prop where
  live : pool.liveWorkers = workers
  idle : pool.idleWorkers = waiting
  waiting_le : waiting ≤ workers
  pos_maxThreads : 1 ≤ pool.maxThreads
  served : pool.queue ≠ [] → 1 ≤ workers
  emptied : pool.stopping → pool.queue = []

/-- The sum of a measure over the threads that a step leaves. -/
def total {α M : Type} [AddCommMonoid M] (f : α → M) (threads : List α) : M :=
  (threads.map f).sum

@[simp] theorem total_nil {α M : Type} [AddCommMonoid M] (f : α → M) : total f [] = 0 := rfl

@[simp] theorem total_cons {α M : Type} [AddCommMonoid M] (f : α → M) (t : α) (ts : List α) :
    total f (t :: ts) = f t + total f ts := List.sum_cons

@[simp] theorem total_append {α M : Type} [AddCommMonoid M] (f : α → M) (ts us : List α) :
    total f (ts ++ us) = total f ts + total f us := by
  simp [total]

/-- The change of the pool `p` by a step of `t`, which `next` replaces. -/
structure PoolChange (p : ℕ) (pool pool' : PoolState σ μ) (t : Thread σ μ)
    (next : List (Thread σ μ)) (l : Label σ μ) : Prop where
  account : (↑pool.queue : Multiset (WorkItem σ μ)) + t.items + l.accepted =
    ↑pool'.queue + total Thread.items next + l.completedItems + l.lost
  order : (l.takenAt p ++ pool'.queue).Sublist (pool.queue ++ l.enqueuedAt p)
  keeps : ∀ workers waiting, PoolInv pool (workers + t.worksFor p) (waiting + t.waitsFor p) →
    waiting ≤ workers →
    PoolInv pool' (workers + total (Thread.worksFor p) next)
      (waiting + total (Thread.waitsFor p) next)
  elsewhere : ∀ q, q ≠ p → t.worksFor q = 0 ∧ total (Thread.worksFor q) next = 0 ∧
    t.waitsFor q = 0 ∧ total (Thread.waitsFor q) next = 0 ∧ l.takenAt q = [] ∧ l.enqueuedAt q = []

/-- A step that does not touch a pool. -/
structure NoPoolChange (t : Thread σ μ) (next : List (Thread σ μ)) (l : Label σ μ) : Prop where
  account : t.items + l.accepted = total Thread.items next + l.completedItems + l.lost
  elsewhere : ∀ q, t.worksFor q = 0 ∧ total (Thread.worksFor q) next = 0 ∧
    t.waitsFor q = 0 ∧ total (Thread.waitsFor q) next = 0 ∧ l.takenAt q = [] ∧ l.enqueuedAt q = []

/-- No message is accepted, taken, completed or dropped. -/
def Label.movesNothing : Label σ μ → Bool
  | .refused _ _ | .scanStarted _ _ | .drained _ _ | .silent => true
  | _ => false

/-- A thread that works for no pool goes on with the messages it has. -/
theorem NoPoolChange.goes_on {t u : Thread σ μ} {l : Label σ μ} (hl : l.movesNothing)
    (hitems : t.items = u.items) (ht : ∀ q, t.worksFor q = 0 ∧ t.waitsFor q = 0)
    (hu : ∀ q, u.worksFor q = 0 ∧ u.waitsFor q = 0) : NoPoolChange t [u] l := by
  cases l with
  | refused | scanStarted | drained | silent =>
      constructor
      · simp [hitems, Label.accepted, Label.completedItems, Label.lost]
      · simp [ht, hu, Label.takenAt, Label.enqueuedAt]
  | _ => cases hl

/-- A thread that works for no pool ends without a message. -/
theorem NoPoolChange.ends {t : Thread σ μ} {l : Label σ μ} (hl : l.movesNothing)
    (hitems : t.items = 0) (ht : ∀ q, t.worksFor q = 0 ∧ t.waitsFor q = 0) :
    NoPoolChange t [] l := by
  cases l with
  | refused | scanStarted | drained | silent =>
      constructor
      · simp [hitems, Label.accepted, Label.completedItems, Label.lost]
      · simp [ht, Label.takenAt, Label.enqueuedAt]
  | _ => cases hl

/-! ### Workers -/

section Workers

variable {p : ℕ} {pool : PoolState σ μ}

/-- A pool that has been counted right but for its queue gets a worker if it
needs one. -/
theorem ensureWorker_inv {workers waiting : ℕ} (hlive : pool.liveWorkers = workers)
    (hidle : pool.idleWorkers = waiting) (hle : waiting ≤ workers) (hmax : 1 ≤ pool.maxThreads)
    (hempty : pool.stopping → pool.queue = []) :
    PoolInv (ensureWorker p pool).1
      (workers + total (Thread.worksFor p) (ensureWorker p pool).2)
      (waiting + total (Thread.waitsFor p) (ensureWorker p pool).2) := by
  unfold ensureWorker
  split
  · rename_i h
    refine ⟨by simpa using hlive, by simpa using hidle, by simpa using hle, hmax, ?_, hempty⟩
    intro hqueue
    simp only [total_nil, add_zero]
    rcases h with h | h | h | h
    · exact absurd (hempty h) hqueue
    · omega
    · omega
    · exact absurd (List.isEmpty_iff.mp h) hqueue
  · refine ⟨by simpa [Thread.worksFor] using hlive, by simpa [Thread.waitsFor] using hidle, ?_,
      hmax, ?_, hempty⟩
    · simp [Thread.worksFor, Thread.waitsFor]
      omega
    · simp [Thread.worksFor]

theorem ensureWorker_queue : (ensureWorker p pool).1.queue = pool.queue := by
  unfold ensureWorker
  split <;> rfl

/-- Workers that are started hold nothing and belong to the pool. -/
theorem ensureWorker_started (q : ℕ) (hq : q ≠ p) :
    total Thread.items (ensureWorker p pool).2 = 0 ∧
      total (Thread.worksFor q) (ensureWorker p pool).2 = 0 ∧
      total (Thread.waitsFor q) (ensureWorker p pool).2 = 0 := by
  unfold ensureWorker
  split <;> simp [Thread.items, Thread.worksFor, Thread.waitsFor, hq.symm]

theorem items_ensureWorker : total Thread.items (ensureWorker p pool).2 = 0 :=
  (@ensureWorker_started σ μ p pool (p + 1) (by omega)).1

/-- A step of a worker that leaves its pool alone. -/
theorem PoolChange.of_same {phase phase' : WorkerPhase σ μ} {l : Label σ μ}
    (haccount : (Thread.worker p phase).items + l.accepted =
      (Thread.worker p phase').items + l.completedItems + l.lost)
    (hwait : ∀ q, (Thread.worker p phase).waitsFor q = 0 ∧ (Thread.worker p phase').waitsFor q = 0)
    (htaken : ∀ q, l.takenAt q = []) (hqueued : ∀ q, l.enqueuedAt q = []) :
    PoolChange p pool pool (.worker p phase) [.worker p phase'] l where
  account := by simpa [add_assoc, total] using haccount
  order := by simp [htaken, hqueued]
  keeps := by
    intro workers waiting hinv _
    simpa [total, Thread.worksFor, (hwait p).1, (hwait p).2] using hinv
  elsewhere := by
    intro q hq
    simp [total, Thread.worksFor, hq.symm, hwait, htaken, hqueued]

variable [DecidableEq σ] {sh : Shared σ μ}

theorem afterWait_change (shrink : Bool) :
    ∃ pool', (afterWait sh p pool).1.pools = sh.pools.set p pool' ∧
      PoolChange p pool pool' (.worker p (.waiting shrink)) (afterWait sh p pool).2.1
        (afterWait sh p pool).2.2 := by
  unfold afterWait
  rcases hqueue : pool.queue with _ | ⟨item, queue⟩
  · by_cases hstop : pool.stopping = true
    · -- the pool shuts down and this worker has nothing left to run
      simp only [hstop, if_true]
      refine ⟨_, rfl, ?_, ?_, ?_, ?_⟩
      · simp [hqueue, Thread.items, Label.accepted, Label.completedItems, Label.lost]
      · simp [hqueue, Label.takenAt, Label.enqueuedAt]
      · intro workers waiting hinv hle
        refine ⟨?_, ?_, ?_, hinv.pos_maxThreads, fun h => absurd rfl h, fun _ => rfl⟩
        · simpa using Nat.sub_eq_of_eq_add hinv.live
        · simpa [Thread.waitsFor] using Nat.sub_eq_of_eq_add hinv.idle
        · simpa using hle
      · intro q hq
        simp [Thread.worksFor, Thread.waitsFor, hq.symm, Label.takenAt, Label.enqueuedAt]
    · simp only [hstop, Bool.false_eq_true, if_false]
      unfold exitIdleWorker
      split
      · -- an idle worker that is not needed leaves
        rename_i left hexit
        split at hexit
        · cases hexit
        · cases hexit
          refine ⟨_, rfl, ?_, ?_, ?_, ?_⟩
          · simp [hqueue, Thread.items, Label.accepted, Label.completedItems, Label.lost]
          · simp [hqueue, Label.takenAt, Label.enqueuedAt]
          · intro workers waiting hinv hle
            refine ⟨?_, ?_, ?_, hinv.pos_maxThreads, fun h => absurd rfl h, fun _ => rfl⟩
            · simpa using Nat.sub_eq_of_eq_add hinv.live
            · simpa [Thread.waitsFor] using Nat.sub_eq_of_eq_add hinv.idle
            · simpa using hle
          · intro q hq
            simp [Thread.worksFor, Thread.waitsFor, hq.symm, Label.takenAt, Label.enqueuedAt]
      · refine ⟨_, rfl, ?_, ?_, ?_, ?_⟩
        · simp [hqueue, Thread.items, Label.accepted, Label.completedItems, Label.lost]
        · simp [hqueue, Label.takenAt, Label.enqueuedAt]
        · intro workers waiting hinv hle
          refine ⟨?_, ?_, ?_, hinv.pos_maxThreads, fun h => absurd rfl h, fun _ => rfl⟩
          · simpa [Thread.worksFor] using hinv.live
          · simpa [Thread.waitsFor] using Nat.sub_eq_of_eq_add hinv.idle
          · simp [Thread.worksFor, Thread.waitsFor]
            omega
        · intro q hq
          simp [Thread.worksFor, Thread.waitsFor, hq.symm, Label.takenAt, Label.enqueuedAt]
  · -- the first item of the queue passes into the hand of the worker
    refine ⟨_, rfl, ?_, ?_, ?_, ?_⟩
    · simp only [hqueue, ← Multiset.cons_coe, ← Multiset.singleton_add, Thread.items,
        Label.accepted, Label.completedItems, Label.lost, total_cons, total_nil, add_zero]
      exact add_comm _ _
    · simp [hqueue, Label.takenAt, Label.enqueuedAt]
    · intro workers waiting hinv hle
      refine ⟨?_, ?_, ?_, hinv.pos_maxThreads, ?_, ?_⟩
      · simpa [Thread.worksFor] using hinv.live
      · simpa [Thread.waitsFor] using Nat.sub_eq_of_eq_add hinv.idle
      · simp [Thread.worksFor, Thread.waitsFor]
        omega
      · simp [Thread.worksFor]
      · intro hstop
        rw [hinv.emptied hstop] at hqueue
        cases hqueue
    · intro q hq
      simp [Thread.worksFor, Thread.waitsFor, hq.symm, Label.takenAt, Label.enqueuedAt]

omit [DecidableEq σ] in
/-- A worker that comes to the wait counts as waiting, whether it blocks or not. -/
theorem PoolInv.enter {workers waiting : ℕ} (h : PoolInv pool (workers + 1) waiting)
    (hle : waiting ≤ workers) :
    PoolInv { pool with idleWorkers := pool.idleWorkers + 1 } (workers + 1) (waiting + 1) where
  live := h.live
  idle := congrArg (· + 1) h.idle
  waiting_le := by omega
  pos_maxThreads := h.pos_maxThreads
  served := h.served
  emptied := h.emptied

theorem enterWait_change :
    ∃ pool', (enterWait sh p pool).1.pools = sh.pools.set p pool' ∧
      PoolChange p pool pool' (.worker p .ready) (enterWait sh p pool).2.1
        (enterWait sh p pool).2.2 := by
  unfold enterWait
  dsimp only
  split
  · obtain ⟨pool', hpools, hchange⟩ := @afterWait_change σ μ p
      { pool with idleWorkers := pool.idleWorkers + 1 } _ sh false
    refine ⟨pool', hpools, hchange.account, hchange.order, ?_, ?_⟩
    · intro workers waiting hinv hle
      refine hchange.keeps workers waiting ?_ hle
      simpa [Thread.worksFor, Thread.waitsFor] using
        PoolInv.enter (by simpa [Thread.worksFor, Thread.waitsFor] using hinv) hle
    · intro q hq
      have h := hchange.elsewhere q hq
      exact ⟨by simp [Thread.worksFor, hq.symm], h.2.1, rfl, h.2.2.2⟩
  · refine ⟨_, rfl, ?_, ?_, ?_, ?_⟩
    · simp [Thread.items, Label.accepted, Label.completedItems, Label.lost]
    · simp [Label.takenAt, Label.enqueuedAt]
    · intro workers waiting hinv hle
      simpa [Thread.worksFor, Thread.waitsFor] using
        PoolInv.enter (by simpa [Thread.worksFor, Thread.waitsFor] using hinv) hle
    · intro q hq
      simp [Thread.worksFor, Thread.waitsFor, hq.symm, Label.takenAt, Label.enqueuedAt]

omit [DecidableEq σ] in
theorem dispatch_change (item : WorkItem σ μ) (choice : Choice) :
    (dispatch sh p pool item choice).1 = sh ∧
      PoolChange p pool pool (.worker p (.holding item)) (dispatch sh p pool item choice).2.1
        (dispatch sh p pool item choice).2.2 := by
  unfold dispatch
  split
  · refine ⟨rfl, PoolChange.of_same ?_ ?_ ?_ ?_⟩ <;>
      simp [Thread.items, Thread.waitsFor, Label.accepted, Label.completedItems, Label.lost,
        Label.takenAt, Label.enqueuedAt]
  · split <;> refine ⟨rfl, PoolChange.of_same ?_ ?_ ?_ ?_⟩ <;>
      simp [Thread.items, Thread.waitsFor, Label.accepted, Label.completedItems, Label.lost,
        Label.takenAt, Label.enqueuedAt]

theorem workerMain_change {choice : Choice} {phase : WorkerPhase σ μ} {sh' : Shared σ μ}
    {next : List (Thread σ μ)} {l : Label σ μ} (hpool : sh.pools[p]? = some pool)
    (h : workerMain sh p pool choice phase = some (sh', next, l)) :
    ∃ pool', sh'.pools = sh.pools.set p pool' ∧
      PoolChange p pool pool' (.worker p phase) next l := by
  have hsame : sh.pools = sh.pools.set p pool := by
    obtain ⟨hlt, rfl⟩ := List.getElem?_eq_some_iff.mp hpool
    rw [List.set_getElem_self]
  cases phase with
  | ready =>
      have hchange := @enterWait_change σ μ p pool _ sh
      simp only [workerMain, Option.some.injEq] at h
      rwa [h] at hchange
  | waiting shrink =>
      have hchange := @afterWait_change σ μ p pool _ sh shrink
      simp only [workerMain, Option.ite_none_right_eq_some, Option.some.injEq] at h
      rwa [h.2] at hchange
  | holding item =>
      have hd := @dispatch_change σ μ p pool sh item choice
      simp only [workerMain, Option.some.injEq] at h
      rw [h] at hd
      exact ⟨pool, hd.1 ▸ hsame, hd.2⟩
  | dispatching stub =>
      cases Option.some.inj h
      refine ⟨pool, hsame, PoolChange.of_same ?_ ?_ ?_ ?_⟩ <;>
        simp [Thread.items, Thread.waitsFor, Label.accepted, Label.completedItems, Label.lost,
          Label.takenAt, Label.enqueuedAt]
  | returned stub retire =>
      cases Option.some.inj h
      refine ⟨pool, hsame, PoolChange.of_same ?_ ?_ ?_ ?_⟩ <;>
        simp [Thread.items, Thread.waitsFor, Label.accepted, Label.completedItems, Label.lost,
          Label.takenAt, Label.enqueuedAt]
  | leaving retire =>
      cases retire with
      | false =>
          cases Option.some.inj h
          refine ⟨_, rfl, ?_, ?_, ?_, ?_⟩
          · simp [Thread.items, Label.accepted, Label.completedItems, Label.lost]
          · simp [Label.takenAt, Label.enqueuedAt]
          · intro workers waiting hinv _
            exact ⟨hinv.live, hinv.idle, hinv.waiting_le, hinv.pos_maxThreads, hinv.served,
              hinv.emptied⟩
          · intro q hq
            simp [Thread.worksFor, Thread.waitsFor, hq.symm, Label.takenAt, Label.enqueuedAt]
      | true =>
          simp only [workerMain, if_true, Option.some.injEq, Prod.mk.injEq] at h
          obtain ⟨rfl, rfl, rfl⟩ := h
          refine ⟨_, rfl, ?_, ?_, ?_, ?_⟩
          · simp [ensureWorker_queue, items_ensureWorker, Thread.items, Label.accepted,
              Label.completedItems, Label.lost]
          · simp [ensureWorker_queue, Label.takenAt, Label.enqueuedAt]
          · intro workers waiting hinv hle
            refine ensureWorker_inv ?_ ?_ hle hinv.pos_maxThreads hinv.emptied
            · simpa using Nat.sub_eq_of_eq_add hinv.live
            · simpa [Thread.waitsFor] using hinv.idle
          · intro q hq
            have hstarted := fun pool => @ensureWorker_started σ μ p pool q hq
            simp [hstarted, Thread.worksFor, Thread.waitsFor, hq.symm, Label.takenAt,
              Label.enqueuedAt]

/-! What the steps of a worker leave alone. -/

omit [DecidableEq σ] in
theorem ensureWorker_workers : ∀ u ∈ (ensureWorker p pool).2, ∃ phase, u = .worker p phase := by
  unfold ensureWorker
  split <;> simp

theorem afterWait_frame : (afterWait sh p pool).1.registry = sh.registry ∧
    (afterWait sh p pool).1.registryLocked = sh.registryLocked ∧
    ∀ u ∈ (afterWait sh p pool).2.1, ∃ phase, u = .worker p phase := by
  unfold afterWait
  dsimp only
  split
  · split
    · exact ⟨rfl, rfl, by simp⟩
    · split <;> exact ⟨rfl, rfl, by simp⟩
  · exact ⟨rfl, rfl, by simp⟩

theorem workerMain_frame {choice : Choice} {phase : WorkerPhase σ μ} {sh' : Shared σ μ}
    {next : List (Thread σ μ)} {l : Label σ μ}
    (h : workerMain sh p pool choice phase = some (sh', next, l)) :
    sh'.registry = sh.registry ∧ sh'.registryLocked = sh.registryLocked ∧
      ∀ u ∈ next, ∃ phase, u = .worker p phase := by
  cases phase with
  | ready =>
      simp only [workerMain, enterWait, Option.some.injEq] at h
      split at h
      · have hframe := @afterWait_frame σ μ p
          { pool with idleWorkers := pool.idleWorkers + 1 } _ sh
        rwa [h] at hframe
      · cases h
        exact ⟨rfl, rfl, by simp⟩
  | waiting shrink =>
      have hframe := @afterWait_frame σ μ p pool _ sh
      simp only [workerMain, Option.ite_none_right_eq_some, Option.some.injEq] at h
      rwa [h.2] at hframe
  | holding item =>
      simp only [workerMain, dispatch, Option.some.injEq] at h
      split at h
      · cases h
        exact ⟨rfl, rfl, by simp⟩
      · split at h <;> cases h <;> exact ⟨rfl, rfl, by simp⟩
  | dispatching stub =>
      cases h
      exact ⟨rfl, rfl, by simp⟩
  | returned stub retire =>
      cases h
      exact ⟨rfl, rfl, by simp⟩
  | leaving retire =>
      cases retire with
      | false =>
          cases h
          exact ⟨rfl, rfl, by simp⟩
      | true =>
          simp only [workerMain, if_true, Option.some.injEq, Prod.mk.injEq] at h
          obtain ⟨rfl, rfl, rfl⟩ := h
          exact ⟨rfl, rfl, ensureWorker_workers⟩

end Workers

/-! ### Calls of the interface -/

section Calls

variable {p : ℕ} {pool : PoolState σ μ} {sh : Shared σ μ}

theorem offer_change {item : WorkItem σ μ} (hpool : sh.pools[p]? = some pool) :
    ∃ pool', (offer sh p pool item).1.pools = sh.pools.set p pool' ∧
      PoolChange p pool pool' (.offering p item) (offer sh p pool item).2.1
        (offer sh p pool item).2.2 := by
  have hsame : sh.pools = sh.pools.set p pool := by
    obtain ⟨hlt, rfl⟩ := List.getElem?_eq_some_iff.mp hpool
    rw [List.set_getElem_self]
  unfold offer
  split
  · refine ⟨pool, hsame, ?_, ?_, fun _ _ h _ => h, ?_⟩ <;>
      simp [Thread.items, Thread.worksFor, Thread.waitsFor, Label.accepted, Label.completedItems,
        Label.lost, Label.takenAt, Label.enqueuedAt]
  · rename_i hstop
    split
    · refine ⟨pool, hsame, ?_, ?_, fun _ _ h _ => h, ?_⟩ <;>
        simp [Thread.items, Thread.worksFor, Thread.waitsFor, Label.accepted, Label.completedItems,
          Label.lost, Label.takenAt, Label.enqueuedAt]
    · refine ⟨_, rfl, ?_, ?_, ?_, ?_⟩
      · simp [ensureWorker_queue, items_ensureWorker, Thread.items, Label.accepted,
          Label.completedItems, Label.lost, ← Multiset.coe_add]
      · simp [ensureWorker_queue, Label.takenAt, Label.enqueuedAt]
      · intro workers waiting hinv hle
        refine ensureWorker_inv ?_ ?_ hle hinv.pos_maxThreads (fun h => absurd h hstop)
        · simpa [Thread.worksFor] using hinv.live
        · simpa [Thread.waitsFor] using hinv.idle
      · intro q hq
        have hstarted := fun pool => @ensureWorker_started σ μ p pool q hq
        simp [hstarted, Thread.worksFor, Thread.waitsFor, hq.symm, Label.takenAt,
          Label.enqueuedAt]

theorem rejectItem_spec {item : WorkItem σ μ} {queued : List (WorkItem σ μ)} {t u : Thread σ μ}
    {choice : Choice} (ht : t.items = ↑(item :: queued)) (hu : u.items = ↑queued)
    (hworks : ∀ q, t.worksFor q = 0 ∧ u.worksFor q = 0)
    (hwaits : ∀ q, t.waitsFor q = 0 ∧ u.waitsFor q = 0) :
    (rejectItem sh item queued u choice).1 = sh ∧
      NoPoolChange t (rejectItem sh item queued u choice).2.1
        (rejectItem sh item queued u choice).2.2 := by
  unfold rejectItem
  split
  · refine ⟨rfl, ?_, ?_⟩
    · simp [ht, hu, Label.accepted, Label.completedItems, Label.lost, ← Multiset.singleton_add,
        ← Multiset.cons_coe, add_comm]
    · simp [hworks, hwaits, Label.takenAt, Label.enqueuedAt]
  · split
    · refine ⟨rfl, ?_, ?_⟩
      · simp [ht, Label.accepted, Label.completedItems, Label.lost, ← Multiset.singleton_add,
          ← Multiset.cons_coe]
      · simp [hworks, hwaits, Label.takenAt, Label.enqueuedAt]
    · refine ⟨rfl, ?_, ?_⟩
      · simp [ht, hu, Label.accepted, Label.completedItems, Label.lost, ← Multiset.singleton_add,
          ← Multiset.cons_coe, add_comm]
      · simp [hworks, hwaits, Label.takenAt, Label.enqueuedAt]

/-- A pool as `Configure` installs it. -/
structure Fresh (pool : PoolState σ μ) : Prop where
  queue : pool.queue = []
  liveWorkers : pool.liveWorkers = 1
  idleWorkers : pool.idleWorkers = 0
  maxThreads : 1 ≤ pool.maxThreads
  stopping : pool.stopping = false

theorem Fresh.inv (h : Fresh pool) : PoolInv pool 1 0 where
  live := h.liveWorkers
  idle := h.idleWorkers
  waiting_le := Nat.zero_le 1
  pos_maxThreads := h.maxThreads
  served := fun _ => le_rfl
  emptied := fun _ => h.queue

/-- New pools come behind the old ones, each with one worker. -/
theorem installPools_spec (configs : List PoolConfig) (sh : Shared σ μ) :
    ∃ added : List (PoolState σ μ), (installPools sh configs).1.pools = sh.pools ++ added ∧
      (∀ pool ∈ added, Fresh pool) ∧
      total Thread.items (installPools sh configs).2 = 0 ∧
      ∀ p, total (Thread.waitsFor p) (installPools sh configs).2 = 0 ∧
        total (Thread.worksFor p) (installPools sh configs).2 =
          if sh.pools.length ≤ p ∧ p < sh.pools.length + added.length then 1 else 0 := by
  induction configs generalizing sh with
  | nil =>
      refine ⟨[], by simp [installPools], by simp, rfl, fun p => ⟨rfl, ?_⟩⟩
      simp only [installPools, total_nil, List.length_nil, add_zero]
      rw [if_neg (by omega)]
  | cons config configs ih =>
      obtain ⟨added, hpools, hfresh, hitems, hworkers⟩ := ih (installPool sh config).1
      simp only [installPools]
      by_cases hname : (sh.findByName config.name).isSome = true
      · have hinstall : installPool sh config = (sh, []) := if_pos hname
        rw [hinstall] at hpools hitems hworkers ⊢
        exact ⟨added, hpools, hfresh, by simpa using hitems, by simpa using hworkers⟩
      · simp only [installPool, if_neg hname] at hpools hitems hworkers ⊢
        refine ⟨_ :: added, by rw [hpools, List.append_assoc, List.singleton_append], ?_, ?_, ?_⟩
        · intro pool hpool
          rcases List.mem_cons.mp hpool with rfl | hpool
          · exact ⟨rfl, rfl, rfl, le_max_left 1 _, rfl⟩
          · exact hfresh pool hpool
        · simpa [Thread.items] using hitems
        · intro p
          obtain ⟨hwaits, hworks⟩ := hworkers p
          refine ⟨by simpa [Thread.waitsFor] using hwaits, ?_⟩
          simp only [List.cons_append, List.nil_append, total_cons, hworks, Thread.worksFor,
            List.length_append, List.length_cons, List.length_nil]
          split_ifs <;> omega

end Calls

/-! ### One step -/

/-- Every step changes one pool, or none, or installs a new set. -/
theorem act_spec [DecidableEq σ] {sh sh' : Shared σ μ} {choice : Choice} {t : Thread σ μ}
    {next : List (Thread σ μ)} {l : Label σ μ} (h : act sh choice t = some (sh', next, l)) :
    (∃ p pool pool', sh.pools[p]? = some pool ∧ sh'.pools = sh.pools.set p pool' ∧
      PoolChange p pool pool' t next l) ∨
    (sh'.pools = sh.pools ∧ NoPoolChange t next l) ∨
    (∃ configs, t = .stopping [] (some configs) ∧ sh' = (installPools sh configs).1 ∧
      next = (installPools sh configs).2 ∧ l = .silent) := by
  cases t with
  | worker p phase =>
      simp only [act, Option.bind_eq_bind, Option.bind_eq_some_iff] at h
      obtain ⟨pool, hpool, h⟩ := h
      obtain ⟨pool', hpools, hchange⟩ := workerMain_change hpool h
      exact .inl ⟨p, pool, pool', hpool, hpools, hchange⟩
  | enqueue poolName item =>
      simp only [act, Option.ite_none_left_eq_some] at h
      obtain ⟨-, h⟩ := h
      split at h
      · cases h
        exact .inr (.inl ⟨rfl, .ends rfl rfl fun _ => ⟨rfl, rfl⟩⟩)
      · cases h
        exact .inr (.inl ⟨rfl, .goes_on rfl rfl (fun _ => ⟨rfl, rfl⟩) fun _ => ⟨rfl, rfl⟩⟩)
  | offering p item =>
      simp only [act, Option.map_eq_some_iff] at h
      obtain ⟨pool, hpool, h⟩ := h
      obtain ⟨pool', hpools, hchange⟩ := @offer_change σ μ p pool sh item hpool
      rw [h] at hpools hchange
      exact .inl ⟨p, pool, pool', hpool, hpools, hchange⟩
  | rejectQueuedAndWait caller stub =>
      simp only [act, Option.ite_none_left_eq_some] at h
      cases h.2
      exact .inr (.inl ⟨rfl, .goes_on rfl rfl (fun _ => ⟨rfl, rfl⟩) fun _ => ⟨rfl, rfl⟩⟩)
  | scanning caller stub pools queued =>
      cases pools with
      | nil =>
          cases h
          exact .inr (.inl ⟨rfl, .goes_on rfl rfl (fun _ => ⟨rfl, rfl⟩) fun _ => ⟨rfl, rfl⟩⟩)
      | cons p pools =>
          simp only [act, Option.map_eq_some_iff] at h
          obtain ⟨pool, hpool, h⟩ := h
          cases h
          refine .inl ⟨p, pool, _, hpool, rfl, ?_, ?_, ?_, ?_⟩
          · -- what is filtered out goes to the list of the caller
            have hsplit := Multiset.filter_add_not (fun item : WorkItem σ μ => item.stub = stub)
              ↑pool.queue
            simp only [Multiset.filter_coe] at hsplit
            simp only [Thread.items, Label.accepted, Label.completedItems, Label.lost, total_cons,
              total_nil, add_zero, ← Multiset.coe_add, ne_eq]
            rw [← hsplit]
            abel
          · simp [Label.takenAt, Label.enqueuedAt]
          · intro workers waiting hinv _
            have hserved : (pool.queue.filter fun item => item.stub ≠ stub) ≠ [] →
                pool.queue ≠ [] := by
              intro hne hnil
              simp [hnil] at hne
            refine ⟨hinv.live, hinv.idle, hinv.waiting_le, hinv.pos_maxThreads,
              fun h => hinv.served (hserved h), fun h => ?_⟩
            simp [hinv.emptied h]
          · simp [Thread.worksFor, Thread.waitsFor, Label.takenAt, Label.enqueuedAt]
  | rejecting caller stub queued =>
      cases queued with
      | nil =>
          cases h
          exact .inr (.inl ⟨rfl, .goes_on rfl rfl (fun _ => ⟨rfl, rfl⟩) fun _ => ⟨rfl, rfl⟩⟩)
      | cons item queued =>
          have hspec := @rejectItem_spec σ μ sh item queued (.rejecting caller stub (item :: queued))
            (.rejecting caller stub queued) choice rfl rfl (fun _ => ⟨rfl, rfl⟩)
            (fun _ => ⟨rfl, rfl⟩)
          simp only [act, Option.some.injEq] at h
          rw [h] at hspec
          exact .inr (.inl ⟨congrArg Shared.pools hspec.1, hspec.2⟩)
  | awaiting caller stub =>
      simp only [act, Option.ite_none_right_eq_some] at h
      cases h.2
      exact .inr (.inl ⟨rfl, .ends rfl rfl fun _ => ⟨rfl, rfl⟩⟩)
  | configure pools =>
      simp only [act] at h
      split at h
      · cases h
        exact .inr (.inl ⟨rfl, .goes_on rfl rfl (fun _ => ⟨rfl, rfl⟩) fun _ => ⟨rfl, rfl⟩⟩)
      · cases h
        exact .inr (.inl ⟨rfl, .ends rfl rfl fun _ => ⟨rfl, rfl⟩⟩)
  | shutdown install =>
      simp only [act, Option.ite_none_left_eq_some] at h
      cases h.2
      exact .inr (.inl ⟨rfl, .goes_on rfl rfl (fun _ => ⟨rfl, rfl⟩) fun _ => ⟨rfl, rfl⟩⟩)
  | stopping pools install =>
      rcases pools with _ | ⟨p, pools⟩
      · cases install with
        | none =>
            cases h
            exact .inr (.inl ⟨rfl, .ends rfl rfl fun _ => ⟨rfl, rfl⟩⟩)
        | some configs =>
            simp only [act, Option.ite_none_left_eq_some] at h
            cases h.2
            exact .inr (.inr ⟨configs, rfl, rfl, rfl, rfl⟩)
      · simp only [act, Option.map_eq_some_iff] at h
        obtain ⟨pool, hpool, h⟩ := h
        cases h
        refine .inl ⟨p, pool, _, hpool, rfl, ?_, ?_, ?_, ?_⟩
        · simp [Thread.items, Label.accepted, Label.completedItems, Label.lost]
        · simp [Label.takenAt, Label.enqueuedAt]
        · intro workers waiting hinv _
          exact ⟨hinv.live, hinv.idle, hinv.waiting_le, hinv.pos_maxThreads,
            fun h => absurd rfl h, fun _ => rfl⟩
        · simp [Thread.worksFor, Thread.waitsFor, Label.takenAt, Label.enqueuedAt]
  | rejectingPool p queued pools install =>
      cases queued with
      | nil =>
          cases h
          exact .inr (.inl ⟨rfl, .goes_on rfl rfl (fun _ => ⟨rfl, rfl⟩) fun _ => ⟨rfl, rfl⟩⟩)
      | cons item queued =>
          have hspec := @rejectItem_spec σ μ sh item queued
            (.rejectingPool p (item :: queued) pools install)
            (.rejectingPool p queued pools install) choice rfl rfl (fun _ => ⟨rfl, rfl⟩)
            (fun _ => ⟨rfl, rfl⟩)
          simp only [act, Option.some.injEq] at h
          rw [h] at hspec
          exact .inr (.inl ⟨congrArg Shared.pools hspec.1, hspec.2⟩)
  | joining p pools install =>
      simp only [act, Option.bind_eq_bind, Option.bind_eq_some_iff,
        Option.ite_none_right_eq_some] at h
      obtain ⟨pool, -, -, h⟩ := h
      cases h
      exact .inr (.inl ⟨rfl, .goes_on rfl rfl (fun _ => ⟨rfl, rfl⟩) fun _ => ⟨rfl, rfl⟩⟩)

end WorkerPools

end Esnacc
