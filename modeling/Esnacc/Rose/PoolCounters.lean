import Esnacc.Rose.PoolDrain

/-!
The counters of the worker pools are exact. Beside the workers and those of them that wait, a
pool counts the messages that are being run: a worker counts from the step that takes a message
out of the queue to the one that locks the pool again, and is between steps when it is about to
lock the pool for its next wait.
-/

namespace Esnacc

namespace WorkerPools

open Transition

variable {σ μ : Type}

/-- One for a worker of the pool that has a message in its hand. -/
def Thread.runsFor (p : ℕ) : Thread σ μ → ℕ
  | .worker q (.holding _) | .worker q (.dispatching _) | .worker q (.returned _ _)
  | .worker q (.leaving _) => if q = p then 1 else 0
  | _ => 0

/-- One for a worker of the pool that is between steps. -/
def Thread.betweenFor (p : ℕ) : Thread σ μ → ℕ
  | .worker q .ready => if q = p then 1 else 0
  | _ => 0

theorem Thread.worksFor_eq (p : ℕ) (t : Thread σ μ) :
    t.worksFor p = t.waitsFor p + t.runsFor p + t.betweenFor p := by
  cases t with
  | worker q phase =>
      cases phase <;> simp [Thread.worksFor, Thread.waitsFor, Thread.runsFor, Thread.betweenFor]
  | _ => rfl

/-- The pool keeps within the bounds it has been configured with. -/
structure WithinBounds (pool : PoolState σ μ) : Prop where
  liveWorkers : pool.liveWorkers ≤ pool.maxThreads
  elements : 0 < pool.maxElements → pool.queue.length + pool.running ≤ pool.maxElements

/-- The change of a pool by a step of `t`, which `next` replaces. -/
structure CountChange (p : ℕ) (pool pool' : PoolState σ μ) (t : Thread σ μ)
    (next : List (Thread σ μ)) : Prop where
  running : t.runsFor p ≤ pool.running →
    pool'.running + t.runsFor p = pool.running + total (Thread.runsFor p) next
  bounds : t.runsFor p ≤ pool.running → WithinBounds pool → WithinBounds pool'

theorem CountChange.same {p : ℕ} {pool : PoolState σ μ} {t : Thread σ μ}
    {next : List (Thread σ μ)} (h : total (Thread.runsFor p) next = t.runsFor p) :
    CountChange p pool pool t next :=
  ⟨fun _ => by rw [h], fun _ hbounds => hbounds⟩

/-- A pool as it has been installed. -/
structure Unused (pool : PoolState σ μ) : Prop where
  running : pool.running = 0
  bounds : WithinBounds pool

/-- The change of every pool by a step; a pool without predecessor is new. -/
def CountStep (sh sh' : Shared σ μ) (t : Thread σ μ) (next : List (Thread σ μ)) : Prop :=
  ∀ q pool', sh'.pools[q]? = some pool' →
    (∃ pool, sh.pools[q]? = some pool ∧ CountChange q pool pool' t next) ∨
      (sh.pools.length ≤ q ∧ Unused pool' ∧ total (Thread.runsFor q) next = 0)

theorem CountStep.of_same {sh sh' : Shared σ μ} {t : Thread σ μ} {next : List (Thread σ μ)}
    (hsame : sh'.pools = sh.pools)
    (h : ∀ q, total (Thread.runsFor q) next = t.runsFor q) : CountStep sh sh' t next := by
  intro q pool' hpool'
  rw [hsame] at hpool'
  exact .inl ⟨pool', hpool', .same (h q)⟩

theorem CountStep.of_set {sh sh' : Shared σ μ} {t : Thread σ μ} {next : List (Thread σ μ)} {p : ℕ}
    {pool pool' : PoolState σ μ} (hpool : sh.pools[p]? = some pool)
    (hset : sh'.pools = sh.pools.set p pool') (h : CountChange p pool pool' t next)
    (helse : ∀ q, q ≠ p → total (Thread.runsFor q) next = t.runsFor q) :
    CountStep sh sh' t next := by
  intro q other hother
  rw [hset] at hother
  by_cases hq : q = p
  · obtain rfl := hq
    rw [List.getElem?_set_self (List.getElem?_eq_some_iff.mp hpool).1] at hother
    cases hother
    exact .inl ⟨pool, hpool, h⟩
  · rw [List.getElem?_set_ne (Ne.symm hq)] at hother
    exact .inl ⟨other, hother, .same (helse q hq)⟩

/-! ### Workers -/

section Workers

variable {p : ℕ} {pool : PoolState σ μ}

theorem ensureWorker_runs (q : ℕ) : total (Thread.runsFor q) (ensureWorker p pool).2 = 0 := by
  unfold ensureWorker
  split <;> rfl

theorem ensureWorker_running : (ensureWorker p pool).1.running = pool.running := by
  unfold ensureWorker
  split <;> rfl

theorem ensureWorker_bounds (h : WithinBounds pool) : WithinBounds (ensureWorker p pool).1 := by
  unfold ensureWorker
  split
  · exact h
  · rename_i hmore
    have hlt : pool.liveWorkers < pool.maxThreads :=
      not_le.mp fun hle => hmore (.inr (.inl hle))
    exact ⟨hlt, h.elements⟩

theorem Thread.runsFor_of_ne {q : ℕ} (h : q ≠ p) (phase : WorkerPhase σ μ) :
    (Thread.worker p phase).runsFor q = 0 := by
  cases phase <;> simp [Thread.runsFor, Ne.symm h]

variable [DecidableEq σ] {sh sh' : Shared σ μ} {t : Thread σ μ} {next : List (Thread σ μ)}
  {l : Label σ μ}

/-- A worker that comes out of its wait takes a message, leaves, or goes on. -/
theorem afterWait_counts (idle : ℕ) (hpool : sh.pools[p]? = some pool) {phase : WorkerPhase σ μ}
    (hphase : (Thread.worker p phase).runsFor p = 0)
    (h : afterWait sh p { pool with idleWorkers := idle } = (sh', next, l)) :
    CountStep sh sh' (.worker p phase) next := by
  unfold afterWait at h
  dsimp only at h
  split at h
  · split at h
    · cases h
      refine .of_set hpool rfl ⟨fun _ => by simp [hphase], fun _ hbounds => ?_⟩ fun q hq => ?_
      · exact ⟨(Nat.sub_le _ 1).trans hbounds.liveWorkers, hbounds.elements⟩
      · simp [Thread.runsFor_of_ne hq]
    · rename_i hnone
      split at h
      · rename_i exited hexit
        unfold exitIdleWorker at hexit
        split_ifs at hexit
        cases hexit
        cases h
        refine .of_set hpool rfl ⟨fun _ => by simp [hphase], fun _ hbounds => ?_⟩ fun q hq => ?_
        · exact ⟨(Nat.sub_le _ 1).trans hbounds.liveWorkers, hbounds.elements⟩
        · simp [Thread.runsFor_of_ne hq]
      · cases h
        refine .of_set hpool rfl ⟨fun _ => by rw [hphase]; rfl, fun _ hbounds => ?_⟩
          fun q hq => ?_
        · exact ⟨hbounds.liveWorkers, hbounds.elements⟩
        · simp [Thread.runsFor_of_ne hq]
  · rename_i item queue hqueue
    cases h
    refine .of_set hpool rfl ⟨fun _ => ?_, fun _ hbounds => ⟨hbounds.liveWorkers, fun hpos => ?_⟩⟩
      fun q hq => ?_
    · rw [hphase]
      simp [Thread.runsFor]
    · have hle := hbounds.elements hpos
      rw [hqueue, List.length_cons] at hle
      simp only
      omega
    · simp [Thread.runsFor_of_ne hq]

theorem workerMain_counts {choice : Choice} {phase : WorkerPhase σ μ}
    (hpool : sh.pools[p]? = some pool)
    (h : workerMain sh p pool choice phase = some (sh', next, l)) :
    CountStep sh sh' (.worker p phase) next := by
  cases phase with
  | ready =>
      simp only [workerMain, enterWait, Option.some.injEq] at h
      split at h
      · exact afterWait_counts _ hpool rfl h
      · cases h
        refine .of_set hpool rfl ⟨fun _ => by simp [Thread.runsFor], fun _ hbounds => ?_⟩
          fun q hq => ?_
        · exact ⟨hbounds.liveWorkers, hbounds.elements⟩
        · simp [Thread.runsFor]
  | waiting shrink =>
      simp only [workerMain, Option.ite_none_right_eq_some, Option.some.injEq] at h
      exact afterWait_counts pool.idleWorkers hpool rfl h.2
  | holding item =>
      simp only [workerMain, dispatch, Option.some.injEq] at h
      split at h
      · cases h
        exact .of_same rfl fun q => by simp [Thread.runsFor]
      · split at h <;> cases h <;> exact .of_same rfl fun q => by simp [Thread.runsFor]
  | dispatching other =>
      cases h
      exact .of_same rfl fun q => by simp [Thread.runsFor]
  | returned other retire =>
      cases h
      exact .of_same rfl fun q => by simp [Thread.runsFor]
  | leaving retire =>
      -- the message is no longer counted, and a retiring worker may be replaced
      have hone : (Thread.worker p (.leaving retire) : Thread σ μ).runsFor p = 1 := if_pos rfl
      cases retire with
      | false =>
          cases h
          refine .of_set hpool rfl ⟨fun hle => ?_, fun _ hbounds => ⟨hbounds.liveWorkers, ?_⟩⟩
            fun q hq => ?_
          · rw [hone] at hle ⊢
            simp [Thread.runsFor]
            omega
          · intro hpos
            have hle := hbounds.elements hpos
            simp only
            omega
          · simp [Thread.runsFor_of_ne hq]
      | true =>
          simp only [workerMain, if_true, Option.some.injEq, Prod.mk.injEq] at h
          obtain ⟨rfl, rfl, -⟩ := h
          refine .of_set hpool rfl ⟨fun hle => ?_, fun _ hbounds => ?_⟩ fun q hq => ?_
          · rw [ensureWorker_running, ensureWorker_runs, hone]
            rw [hone] at hle
            simp only
            omega
          · refine ensureWorker_bounds ⟨?_, fun hpos => ?_⟩
            · exact (Nat.sub_le _ 1).trans hbounds.liveWorkers
            · have hle := hbounds.elements hpos
              simp only
              omega
          · rw [ensureWorker_runs, Thread.runsFor_of_ne hq]

end Workers

/-! ### One step -/

variable {sh sh' : Shared σ μ} {t : Thread σ μ} {next : List (Thread σ μ)}
  {l : Label σ μ}

theorem offer_counts {p : ℕ} {pool : PoolState σ μ} {item : WorkItem σ μ}
    (hpool : sh.pools[p]? = some pool) (h : offer sh p pool item = (sh', next, l)) :
    CountStep sh sh' (.offering p item) next := by
  unfold offer at h
  split_ifs at h with hstop hfull
  · cases h
    exact .of_same rfl fun q => rfl
  · cases h
    exact .of_same rfl fun q => rfl
  · cases h
    refine .of_set hpool rfl ⟨fun _ => ?_, fun _ hbounds => ?_⟩ fun q _ => ensureWorker_runs q
    · rw [ensureWorker_running, ensureWorker_runs]
      rfl
    · refine ensureWorker_bounds ⟨hbounds.liveWorkers, fun hpos => ?_⟩
      have hfree : pool.queue.length + pool.running < pool.maxElements :=
        not_le.mp fun hle => hfull ⟨hpos, hle⟩
      simp only [List.length_append, List.length_singleton]
      omega

/-- New pools run nothing. -/
theorem installPools_counts (configs : List PoolConfig) (sh : Shared σ μ) (q : ℕ) :
    total (Thread.runsFor q) (installPools sh configs).2 = 0 ∧
      ∀ pool', (installPools sh configs).1.pools[q]? = some pool' →
        sh.pools[q]? = some pool' ∨ sh.pools.length ≤ q ∧ Unused pool' := by
  induction configs generalizing sh with
  | nil => exact ⟨rfl, fun pool' hpool' => .inl hpool'⟩
  | cons config configs ih =>
      simp only [installPools, total_append]
      obtain ⟨hruns, hpools⟩ := ih (installPool sh config).1
      rw [hruns, add_zero]
      by_cases hname : (sh.findByName config.name).isSome = true
      · have hinstall : installPool sh config = (sh, []) := if_pos hname
        rw [hinstall] at hpools ⊢
        exact ⟨rfl, hpools⟩
      · simp only [installPool, if_neg hname] at hpools ⊢
        refine ⟨rfl, fun pool' hpool' => ?_⟩
        rcases hpools pool' hpool' with hold | ⟨hle, hunused⟩
        · rcases lt_or_ge q sh.pools.length with hlt | hge
          · rw [List.getElem?_append_left hlt] at hold
            exact .inl hold
          · rw [List.getElem?_append_right hge] at hold
            obtain rfl := List.mem_singleton.mp (List.mem_of_getElem? hold)
            exact .inr ⟨hge, rfl, le_max_left 1 _, fun _ => Nat.zero_le _⟩
        · rw [List.length_append] at hle
          exact .inr ⟨(Nat.le_add_right _ _).trans hle, hunused⟩

theorem rejectItem_counts {choice : Choice} {item : WorkItem σ μ} {queued : List (WorkItem σ μ)}
    {u : Thread σ μ} (ht : ∀ q, t.runsFor q = 0) (hu : ∀ q, u.runsFor q = 0)
    (h : rejectItem sh item queued u choice = (sh', next, l)) : CountStep sh sh' t next := by
  unfold rejectItem at h
  split_ifs at h <;> cases h <;> exact .of_same rfl fun q => by simp [ht, hu]

variable [DecidableEq σ]

theorem act_counts {choice : Choice} (h : act sh choice t = some (sh', next, l)) :
    CountStep sh sh' t next := by
  cases t with
  | worker p phase =>
      simp only [act, Option.bind_eq_bind, Option.bind_eq_some_iff] at h
      obtain ⟨pool, hpool, h⟩ := h
      exact workerMain_counts hpool h
  | enqueue poolName item =>
      simp only [act, Option.ite_none_left_eq_some] at h
      obtain ⟨-, h⟩ := h
      split at h <;> cases h <;> exact .of_same rfl fun q => rfl
  | offering p item =>
      simp only [act, Option.map_eq_some_iff] at h
      obtain ⟨pool, hpool, h⟩ := h
      exact offer_counts hpool h
  | rejectQueuedAndWait caller stub =>
      simp only [act, Option.ite_none_left_eq_some] at h
      cases h.2
      exact .of_same rfl fun q => rfl
  | scanning caller stub pools queued =>
      cases pools with
      | nil =>
          cases h
          exact .of_same rfl fun q => rfl
      | cons p pools =>
          simp only [act, Option.map_eq_some_iff] at h
          obtain ⟨pool, hpool, h⟩ := h
          cases h
          refine .of_set hpool rfl ⟨fun _ => rfl, fun _ hbounds => ?_⟩ fun q _ => rfl
          refine ⟨hbounds.liveWorkers, fun hpos => ?_⟩
          exact (Nat.add_le_add_right (List.length_filter_le _ _) _).trans (hbounds.elements hpos)
  | rejecting caller stub queued =>
      cases queued with
      | nil =>
          cases h
          exact .of_same rfl fun q => rfl
      | cons item queued =>
          exact rejectItem_counts (fun _ => rfl) (fun _ => rfl) (Option.some.inj h)
  | awaiting caller stub =>
      simp only [act, Option.ite_none_right_eq_some] at h
      cases h.2
      exact .of_same rfl fun q => rfl
  | configure pools =>
      simp only [act] at h
      split at h <;> cases h <;> exact .of_same rfl fun q => rfl
  | shutdown install =>
      simp only [act, Option.ite_none_left_eq_some] at h
      cases h.2
      exact .of_same rfl fun q => rfl
  | stopping pools install =>
      rcases pools with _ | ⟨p, pools⟩
      · cases install with
        | none =>
            cases h
            exact .of_same rfl fun q => rfl
        | some configs =>
            simp only [act, Option.ite_none_left_eq_some] at h
            cases h.2
            intro q pool' hpool'
            obtain ⟨hruns, hpools⟩ := installPools_counts configs sh q
            rcases hpools pool' hpool' with hold | ⟨hle, hunused⟩
            · exact .inl ⟨pool', hold, .same hruns⟩
            · exact .inr ⟨hle, hunused, hruns⟩
      · simp only [act, Option.map_eq_some_iff] at h
        obtain ⟨pool, hpool, h⟩ := h
        cases h
        refine .of_set hpool rfl ⟨fun _ => rfl, fun _ hbounds => ?_⟩ fun q _ => rfl
        refine ⟨hbounds.liveWorkers, fun hpos => ?_⟩
        exact (Nat.add_le_add_right (Nat.zero_le _) _).trans (hbounds.elements hpos)
  | rejectingPool p queued pools install =>
      cases queued with
      | nil =>
          cases h
          exact .of_same rfl fun q => rfl
      | cons item queued =>
          exact rejectItem_counts (fun _ => rfl) (fun _ => rfl) (Option.some.inj h)
  | joining p pools install =>
      simp only [act, Option.bind_eq_bind, Option.bind_eq_some_iff,
        Option.ite_none_right_eq_some] at h
      obtain ⟨pool, -, -, h⟩ := h
      cases h
      exact .of_same rfl fun q => rfl

/-! ### Runs -/

/-- Every pool counts the messages in the hands of its workers and keeps within its bounds. -/
structure CountInv (s : State σ μ) : Prop where
  running : ∀ (p : ℕ) (pool : PoolState σ μ), s.shared.pools[p]? = some pool →
    pool.running = count (Thread.runsFor p) s.threads
  bounds : ∀ (p : ℕ) (pool : PoolState σ μ), s.shared.pools[p]? = some pool → WithinBounds pool

theorem countInv_step {s s' : State σ μ} (h : CountInv s) (hpools : PoolsInv s)
    (hstep : Step s l s') : CountInv s' := by
  cases hstep with
  | call u hcall hcaller =>
      have hnone : ∀ p, u.runsFor p = 0 := by
        intro p
        cases u <;> simp_all [Thread.isCall, Thread.runsFor]
      refine ⟨fun p pool hpool => ?_, h.bounds⟩
      rw [count_cons, hnone, zero_add]
      exact h.running p pool hpool
  | @act sh sh' threads u next l choice hact =>
      have hrunning : ∀ p pool, sh.pools[p]? = some pool →
          pool.running = u.runsFor p + count (Thread.runsFor p) threads := by
        intro p pool hpool
        rw [← count_cons]
        exact h.running p pool hpool
      refine ⟨fun p pool' hpool' => ?_, fun p pool' hpool' => ?_⟩
      · rw [count_next]
        rcases act_counts hact p pool' hpool' with ⟨pool, hpool, hchange⟩ | ⟨hle, hunused, hruns⟩
        · have hcount := hrunning p pool hpool
          have := hchange.running (by omega)
          omega
        · -- nobody works for a pool that is not there yet
          have hnone := hpools.absent p hle
          rw [workers, sum_map_cons] at hnone
          have hle : count (Thread.runsFor p) threads ≤ (threads.map (Thread.worksFor p)).sum := by
            refine Multiset.sum_map_le_sum_map _ _ fun v _ => ?_
            rw [Thread.worksFor_eq]
            omega
          rw [hunused.running, hruns]
          omega
      · rcases act_counts hact p pool' hpool' with ⟨pool, hpool, hchange⟩ | ⟨-, hunused, -⟩
        · have hcount := hrunning p pool hpool
          exact hchange.bounds (by omega) (h.bounds p pool hpool)
        · exact hunused.bounds

theorem countInv_run {trace : List (Label σ μ)} {s : State σ μ} (h : Run Step .init trace s) :
    CountInv s := by
  have hboth : PoolsInv s ∧ CountInv s := by
    refine h.state_invariant (P := fun s => PoolsInv s ∧ CountInv s) ?_ ?_
    · refine ⟨poolsInv_run .nil, ⟨?_, ?_⟩⟩
      · simp [State.init]
      · simp [State.init]
    · exact fun s l s' hinv hstep =>
        ⟨poolsInv_step hinv.1 hstep, countInv_step hinv.2 hinv.1 hstep⟩
  exact hboth.2

omit [DecidableEq σ] in
theorem count_worksFor (p : ℕ) (threads : Multiset (Thread σ μ)) :
    count (Thread.worksFor p) threads = count (Thread.waitsFor p) threads +
      count (Thread.runsFor p) threads + count (Thread.betweenFor p) threads := by
  simp only [count, ← Multiset.sum_map_add, Thread.worksFor_eq]

/-- The counters of a state. A pool without maximum has `maxElements` zero, and a stub without
entry counts zero. -/
structure CountersExact (s : State σ μ) : Prop where
  order : ∀ (p : ℕ) (pool : PoolState σ μ), s.shared.pools[p]? = some pool →
    pool.idleWorkers ≤ pool.liveWorkers ∧ pool.liveWorkers ≤ pool.maxThreads
  workers : ∀ (p : ℕ) (pool : PoolState σ μ), s.shared.pools[p]? = some pool →
    pool.liveWorkers = count (Thread.worksFor p) s.threads ∧
      pool.idleWorkers = count (Thread.waitsFor p) s.threads ∧
      pool.running = count (Thread.runsFor p) s.threads
  running : ∀ (p : ℕ) (pool : PoolState σ μ), s.shared.pools[p]? = some pool →
    pool.running = pool.liveWorkers - pool.idleWorkers - count (Thread.betweenFor p) s.threads
  elements : ∀ (p : ℕ) (pool : PoolState σ μ), s.shared.pools[p]? = some pool →
    0 < pool.maxElements → pool.running + pool.queue.length ≤ pool.maxElements
  inflight : ∀ stub, s.shared.inflight stub = count (Thread.busyFor stub) s.threads

/-- A pool that takes one message, which its worker has taken out of the queue. -/
def takenSchedule : List (Move ℕ ℕ) :=
  let go : Choice := ⟨false, true, false, false, false⟩
  [.call (.configure [⟨"pool", 1, 0, 1, .keepWorker, [1]⟩]), .act 0 go, .act 0 go, .act 0 go,
    .call (.enqueue "pool" ⟨7, 1, false, true, true⟩), .act 0 go, .act 0 go, .act 0 go]

end WorkerPools

end Esnacc
