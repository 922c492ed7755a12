import Esnacc.Rose.PoolDrain

/-!
Whether a queued message has to wait for a handler. A pool that has not reached
its number of threads should have, for every message in its queue, a worker that
comes to the queue without a handler to finish first. An idle worker counts as
idle until it wakes up, and `EnsureWorker` starts no thread while there is one:
of two messages that are enqueued in a row the second is left to a worker that
the first has claimed. The runs in which this does not happen are those in which
every accepted message and every worker that retires finds no idle worker, or
more free workers than messages.
-/

namespace Esnacc

namespace WorkerPools

open Transition

variable {σ μ : Type}

/-! ### Free workers -/

/-- One for a worker of the pool that is outside of a handler and stays: it comes
to the queue without waiting for a handler. -/
def Thread.freeFor (p : ℕ) : Thread σ μ → ℕ
  | .worker q .ready | .worker q (.waiting _) | .worker q (.returned _ false)
  | .worker q (.leaving false) => if q = p then 1 else 0
  | _ => 0

/-- Every queued message has a free worker that no earlier message claims, or the
pool has as many workers as it may have. -/
def KeepsMoving (s : State σ μ) : Prop :=
  ∀ p (pool : PoolState σ μ), s.shared.pools[p]? = some pool → pool.stopping = false →
    ∀ earlier item later, pool.queue = earlier ++ item :: later →
      earlier.length < count (Thread.freeFor p) s.threads ∨ pool.maxThreads ≤ pool.liveWorkers

/-- The same for one pool with a number of free workers. -/
def PoolState.Attended (pool : PoolState σ μ) (free : ℕ) : Prop :=
  pool.stopping = false → pool.queue.length ≤ free ∨ pool.maxThreads ≤ pool.liveWorkers

theorem keepsMoving_iff_attended {s : State σ μ} :
    KeepsMoving s ↔ ∀ p (pool : PoolState σ μ), s.shared.pools[p]? = some pool →
      pool.Attended (count (Thread.freeFor p) s.threads) := by
  constructor
  · intro h p pool hpool hstop
    rcases List.eq_nil_or_concat pool.queue with hnil | ⟨earlier, item, hqueue⟩
    · exact .inl (by simp [hnil])
    · -- the last message has the most messages before it
      rw [List.concat_eq_append] at hqueue
      rcases h p pool hpool hstop earlier item [] hqueue with hfree | hmax
      · exact .inl (by simpa [hqueue] using hfree)
      · exact .inr hmax
  · intro h p pool hpool hstop earlier item later hqueue
    rcases h p pool hpool hstop with hfree | hmax
    · rw [hqueue, List.length_append, List.length_cons] at hfree
      exact .inl (by omega)
    · exact .inr hmax

/-! ### The condition of a step -/

/-- `Enqueue` takes the message. -/
def PoolState.Accepts (pool : PoolState σ μ) : Prop :=
  pool.stopping = false ∧
    ¬ (0 < pool.maxElements ∧ pool.maxElements ≤ pool.queue.length + pool.running)

/-- What a thread has to find in a pool with a number of free workers: no idle
worker that keeps `EnsureWorker` from starting a thread, or enough free ones. -/
def Thread.PromptAt (p : ℕ) (pool : PoolState σ μ) (free : ℕ) : Thread σ μ → Prop
  | .offering q _ => q = p → pool.Accepts →
      pool.idleWorkers = 0 ∨ pool.maxThreads ≤ pool.liveWorkers ∨ pool.queue.length < free
  | .worker q (.leaving true) => q = p → pool.stopping = false →
      pool.idleWorkers = 0 ∨ pool.maxThreads ≤ pool.liveWorkers - 1 ∨ pool.queue.length ≤ free
  | _ => True

/-- The condition on the thread that acts and the state it finds. -/
def Prompt (s : State σ μ) (t : Thread σ μ) : Prop :=
  ∀ p pool, s.shared.pools[p]? = some pool →
    t.PromptAt p pool (count (Thread.freeFor p) s.threads)

/-- The steps of threads that meet a condition on the state before. -/
inductive StepWhere [DecidableEq σ] (ok : State σ μ → Thread σ μ → Prop) :
    State σ μ → Label σ μ → State σ μ → Prop
  | call {sh : Shared σ μ} {threads : Multiset (Thread σ μ)} (t : Thread σ μ)
      (hcall : t.isCall) (hcaller : ∀ t' ∈ threads, t'.caller ≠ none → t'.caller ≠ t.caller) :
      StepWhere ok ⟨sh, threads⟩ .silent ⟨sh, t ::ₘ threads⟩
  | act {sh sh' : Shared σ μ} {threads : Multiset (Thread σ μ)} {t : Thread σ μ}
      {next : List (Thread σ μ)} {l : Label σ μ} (choice : Choice)
      (hact : act sh choice t = some (sh', next, l)) (hok : ok ⟨sh, t ::ₘ threads⟩ t) :
      StepWhere ok ⟨sh, t ::ₘ threads⟩ l ⟨sh', ↑next + threads⟩

/-! ### One step -/

/-- What a step of `t` does to one pool: it stays attended if and only if the
thread was prompt. -/
def PromptStep (p : ℕ) (pool pool' : PoolState σ μ) (t : Thread σ μ) (next : List (Thread σ μ)) :
    Prop :=
  ∀ free, pool.Attended (free + t.freeFor p) →
    (pool'.Attended (free + total (Thread.freeFor p) next) ↔
      t.PromptAt p pool (free + t.freeFor p))

theorem freeFor_le_worksFor (p : ℕ) (t : Thread σ μ) : t.freeFor p ≤ t.worksFor p := by
  cases t with
  | worker q phase =>
      cases phase with
      | ready | waiting shrink => exact le_rfl
      | holding item => exact Nat.zero_le _
      | dispatching stub => exact Nat.zero_le _
      | returned stub retire => cases retire <;> simp [Thread.freeFor, Thread.worksFor]
      | leaving retire => cases retire <;> simp [Thread.freeFor, Thread.worksFor]
  | _ => exact Nat.zero_le _

theorem total_freeFor_le (p : ℕ) (next : List (Thread σ μ)) :
    total (Thread.freeFor p) next ≤ total (Thread.worksFor p) next := by
  induction next with
  | nil => exact le_rfl
  | cons t next ih =>
      rw [total_cons, total_cons]
      exact Nat.add_le_add (freeFor_le_worksFor p t) ih

/-- A step that changes neither the pool nor its workers. -/
theorem PromptStep.of_same {p : ℕ} {pool : PoolState σ μ} {t : Thread σ μ}
    {next : List (Thread σ μ)} (ht : ∀ free, t.PromptAt p pool free)
    (hfree : total (Thread.freeFor p) next = t.freeFor p) : PromptStep p pool pool t next := by
  intro free hattended
  rw [hfree]
  exact iff_of_true hattended (ht _)

/-- A step after which the queue is empty or the pool stops. -/
theorem PromptStep.of_nothing_queued {p : ℕ} {pool pool' : PoolState σ μ} {t : Thread σ μ}
    {next : List (Thread σ μ)} (ht : ∀ free, t.PromptAt p pool free)
    (hqueue : pool'.queue = []) : PromptStep p pool pool' t next := by
  intro free hattended
  exact iff_of_true (fun _ => .inl (by simp [hqueue])) (ht _)

section Workers

variable {p : ℕ} {pool : PoolState σ μ}

/-- Started threads are free, and are started only below the cap and when there
is no idle worker. -/
theorem ensureWorker_attended {free : ℕ}
    (h : pool.stopping = false → pool.queue ≠ [] →
      pool.queue.length ≤ free + 1 ∨ pool.maxThreads ≤ pool.liveWorkers + 1) :
    (ensureWorker p pool).1.Attended (free + total (Thread.freeFor p) (ensureWorker p pool).2) ↔
      (pool.stopping = false → pool.idleWorkers = 0 ∨ pool.maxThreads ≤ pool.liveWorkers ∨
        pool.queue.length ≤ free) := by
  unfold ensureWorker
  split
  · rename_i hskip
    simp only [PoolState.Attended, total_nil, add_zero]
    refine forall_congr' fun hstop => ?_
    rcases hskip with hstopping | hmax | hidle | hempty
    · rw [hstop] at hstopping
      cases hstopping
    · simp [hmax]
    · constructor
      · rintro (hfree | hmax)
        · exact .inr (.inr hfree)
        · exact .inr (.inl hmax)
      · rintro (hzero | hmax | hfree)
        · omega
        · exact .inr hmax
        · exact .inl hfree
    · simp [List.isEmpty_iff.mp hempty]
  · rename_i hstart
    rw [not_or, not_or, not_or, List.isEmpty_iff] at hstart
    obtain ⟨hstop, -, hidle, hqueue⟩ := hstart
    refine iff_of_true (fun _ => ?_) (fun _ => .inl (by omega))
    simpa [Thread.freeFor] using h (by simpa using hstop) hqueue

variable [DecidableEq σ] {sh : Shared σ μ}

omit [DecidableEq σ] in
theorem getElem?_setPool (hpool : ∃ old, sh.pools[p]? = some old) (new : PoolState σ μ) :
    (sh.setPool p new).pools[p]? = some new := by
  obtain ⟨old, hold⟩ := hpool
  exact List.getElem?_set_self (List.getElem?_eq_some_iff.mp hold).1

/-- A worker that is done waiting takes the first message, and with it the claim
on itself; or it leaves an empty queue. -/
theorem afterWait_attended (hpool : ∃ old, sh.pools[p]? = some old) :
    ∃ pool', (afterWait sh p pool).1.pools[p]? = some pool' ∧
      ∀ free, pool.Attended (free + 1) →
        pool'.Attended (free + total (Thread.freeFor p) (afterWait sh p pool).2.1) := by
  unfold afterWait
  rcases hqueue : pool.queue with _ | ⟨item, queue⟩
  · by_cases hstop : pool.stopping = true
    · simp only [hstop, if_true]
      refine ⟨_, getElem?_setPool hpool _, fun free _ hgoes => ?_⟩
      cases hgoes
    · simp only [hstop, Bool.false_eq_true, if_false]
      split
      · rename_i left hexit
        have hleft : left.queue = [] := by
          rw [exitIdleWorker] at hexit
          split at hexit <;> cases hexit
          rfl
        exact ⟨_, getElem?_setPool hpool _, fun free _ _ => .inl (by simp [hleft])⟩
      · exact ⟨_, getElem?_setPool hpool _, fun free _ _ => .inl (Nat.zero_le _)⟩
  · refine ⟨_, getElem?_setPool hpool _, fun free hattended hstop => ?_⟩
    rcases hattended hstop with hfree | hmax
    · rw [hqueue] at hfree
      exact .inl ((Nat.le_of_succ_le_succ hfree).trans (Nat.le_add_right _ _))
    · exact .inr hmax

theorem workerMain_prompt {choice : Choice} {phase : WorkerPhase σ μ} {sh' : Shared σ μ}
    {next : List (Thread σ μ)} {l : Label σ μ} (hpool : sh.pools[p]? = some pool)
    (h : workerMain sh p pool choice phase = some (sh', next, l)) :
    ∃ pool', sh'.pools[p]? = some pool' ∧ PromptStep p pool pool' (.worker p phase) next := by
  cases phase with
  | ready =>
      simp only [workerMain, enterWait, Option.some.injEq] at h
      split at h
      · obtain ⟨pool', hget, hattended⟩ := @afterWait_attended σ μ p
          { pool with idleWorkers := pool.idleWorkers + 1 } _ sh ⟨pool, hpool⟩
        rw [h] at hget hattended
        refine ⟨pool', hget, fun free hfree => iff_of_true (hattended free ?_) trivial⟩
        simpa [Thread.freeFor, PoolState.Attended] using hfree
      · cases h
        refine ⟨_, getElem?_setPool ⟨pool, hpool⟩ _, fun free hfree => iff_of_true ?_ trivial⟩
        simpa [Thread.freeFor, PoolState.Attended] using hfree
  | waiting shrink =>
      simp only [workerMain, Option.ite_none_right_eq_some, Option.some.injEq] at h
      obtain ⟨pool', hget, hattended⟩ := @afterWait_attended σ μ p pool _ sh ⟨pool, hpool⟩
      rw [h.2] at hget hattended
      refine ⟨pool', hget, fun free hfree => iff_of_true (hattended free ?_) trivial⟩
      simpa [Thread.freeFor] using hfree
  | holding item =>
      have hd := @dispatch_change σ μ p pool sh item choice
      simp only [workerMain, Option.some.injEq] at h
      rw [h] at hd
      obtain ⟨rfl, -⟩ := hd
      -- whatever the worker does next, it was not free
      refine ⟨pool, hpool, fun free hfree => iff_of_true (fun hstop => ?_) trivial⟩
      rcases hfree hstop with hfree | hmax
      · exact .inl (hfree.trans (Nat.add_le_add_left (Nat.zero_le _) free))
      · exact .inr hmax
  | dispatching stub =>
      cases Option.some.inj h
      refine ⟨pool, hpool, fun free hfree => iff_of_true (fun hstop => ?_) trivial⟩
      rcases hfree hstop with hfree | hmax
      · exact .inl (hfree.trans (Nat.add_le_add_left (Nat.zero_le _) free))
      · exact .inr hmax
  | returned stub retire =>
      cases Option.some.inj h
      refine ⟨pool, hpool, PromptStep.of_same (fun _ => trivial) ?_⟩
      cases retire <;> simp [Thread.freeFor]
  | leaving retire =>
      cases retire with
      | false =>
          cases Option.some.inj h
          refine ⟨_, getElem?_setPool ⟨pool, hpool⟩ _, fun free hfree => iff_of_true ?_ trivial⟩
          simpa [Thread.freeFor, PoolState.Attended] using hfree
      | true =>
          simp only [workerMain, if_true, Option.some.injEq, Prod.mk.injEq] at h
          obtain ⟨rfl, rfl, rfl⟩ := h
          refine ⟨_, getElem?_setPool ⟨pool, hpool⟩ _, fun free hfree => ?_⟩
          rw [ensureWorker_attended]
          · exact ⟨fun h _ => h, fun h => h rfl⟩
          · intro hstop _
            rcases hfree hstop with hfree | hmax
            · exact .inl (Nat.le_succ_of_le hfree)
            · exact .inr (hmax.trans (le_tsub_add))

omit [DecidableEq σ] in
theorem offer_prompt {item : WorkItem σ μ} (hpool : sh.pools[p]? = some pool) :
    ∃ pool', (offer sh p pool item).1.pools[p]? = some pool' ∧
      PromptStep p pool pool' (.offering p item) (offer sh p pool item).2.1 := by
  unfold offer
  split
  · rename_i hstop
    refine ⟨pool, hpool, PromptStep.of_same (fun _ _ haccepts => ?_) rfl⟩
    rw [haccepts.1] at hstop
    cases hstop
  · rename_i hstop
    split
    · rename_i hfull
      exact ⟨pool, hpool, PromptStep.of_same (fun _ _ haccepts => absurd hfull haccepts.2) rfl⟩
    · rename_i hroom
      refine ⟨_, getElem?_setPool ⟨pool, hpool⟩ _, fun free hfree => ?_⟩
      have haccepts : pool.Accepts := ⟨by simpa using hstop, hroom⟩
      rw [ensureWorker_attended]
      · simp only [List.length_append, List.length_cons, List.length_nil, Thread.freeFor, add_zero,
          Thread.PromptAt, haccepts, haccepts.1, Nat.lt_iff_add_one_le, zero_add, forall_const]
      · intro _ _
        rw [List.length_append]
        rcases hfree haccepts.1 with hfree | hmax
        · exact .inl (Nat.add_le_add_right hfree 1)
        · exact .inr (Nat.le_succ_of_le hmax)

end Workers

/-! ### A step of any thread -/

variable [DecidableEq σ]

omit [DecidableEq σ] in
theorem rejectItem_free {sh sh' : Shared σ μ} {item : WorkItem σ μ} {queued : List (WorkItem σ μ)}
    {u : Thread σ μ} {choice : Choice} {next : List (Thread σ μ)} {l : Label σ μ}
    (h : rejectItem sh item queued u choice = (sh', next, l)) (hu : ∀ p, u.freeFor p = 0) :
    sh' = sh ∧ ∀ p, total (Thread.freeFor p) next = 0 := by
  unfold rejectItem at h
  split at h
  · cases h
    exact ⟨rfl, by simp [hu]⟩
  · split at h <;> cases h <;> exact ⟨rfl, by simp [hu]⟩

omit [DecidableEq σ] in
/-- A step that changes neither a pool nor who works for it. -/
theorem PromptStep.of_elsewhere {p : ℕ} {pool : PoolState σ μ} {t : Thread σ μ}
    {next : List (Thread σ μ)} (ht : ∀ free, t.PromptAt p pool free) (hworks : t.worksFor p = 0)
    (hnext : total (Thread.worksFor p) next = 0) : PromptStep p pool pool t next := by
  have hfree := freeFor_le_worksFor p t
  have htotal := total_freeFor_le p next
  exact PromptStep.of_same ht (by omega)

theorem act_prompt {sh sh' : Shared σ μ} {choice : Choice} {t : Thread σ μ}
    {next : List (Thread σ μ)} {l : Label σ μ} (h : act sh choice t = some (sh', next, l)) (p : ℕ)
    {pool : PoolState σ μ} (hpool : sh.pools[p]? = some pool) :
    ∃ pool', sh'.pools[p]? = some pool' ∧ PromptStep p pool pool' t next := by
  -- a thread that changes another pool, or none
  have hother {q : ℕ} {other changed : PoolState σ μ} (hq : p ≠ q)
      (hset : sh'.pools = sh.pools.set q changed) (hchange : PoolChange q other changed t next l)
      (ht : ∀ free, t.PromptAt p pool free) :
      ∃ pool', sh'.pools[p]? = some pool' ∧ PromptStep p pool pool' t next := by
    obtain ⟨hworks, hnext, -⟩ := hchange.elsewhere p hq
    exact ⟨pool, by rw [hset, List.getElem?_set_ne hq.symm, hpool], .of_elsewhere ht hworks hnext⟩
  cases t with
  | worker q phase =>
      simp only [act, Option.bind_eq_bind, Option.bind_eq_some_iff] at h
      obtain ⟨own, hown, h⟩ := h
      by_cases hq : p = q
      · obtain rfl := hq
        cases hpool.symm.trans hown
        exact workerMain_prompt hpool h
      · obtain ⟨changed, hset, hchange⟩ := workerMain_change hown h
        refine hother hq hset hchange fun free => ?_
        cases phase with
        | leaving retire => cases retire <;> simp [Thread.PromptAt, Ne.symm hq]
        | _ => trivial
  | offering q item =>
      simp only [act, Option.map_eq_some_iff] at h
      obtain ⟨own, hown, h⟩ := h
      by_cases hq : p = q
      · obtain rfl := hq
        cases hpool.symm.trans hown
        have hoffer := @offer_prompt σ μ p pool sh item hpool
        rwa [h] at hoffer
      · obtain ⟨changed, hset, hchange⟩ := @offer_change σ μ q own sh item hown
        rw [h] at hset hchange
        exact hother hq hset hchange fun free hp => absurd hp.symm hq
  | scanning caller stub pools queued =>
      cases pools with
      | nil =>
          cases h
          exact ⟨pool, hpool, .of_same (fun _ => trivial) rfl⟩
      | cons q pools =>
          simp only [act, Option.map_eq_some_iff] at h
          obtain ⟨own, hown, h⟩ := h
          cases h
          by_cases hq : p = q
          · obtain rfl := hq
            cases hpool.symm.trans hown
            refine ⟨_, getElem?_setPool ⟨pool, hpool⟩ _, fun free hfree => iff_of_true ?_ trivial⟩
            intro hstop
            rcases hfree hstop with hfree | hmax
            · exact .inl ((List.length_filter_le _ _).trans hfree)
            · exact .inr hmax
          · refine ⟨pool, ?_, .of_same (fun _ => trivial) rfl⟩
            exact (List.getElem?_set_ne (Ne.symm hq)).trans hpool
  | stopping pools install =>
      cases pools with
      | nil =>
          cases install with
          | none =>
              cases h
              exact ⟨pool, hpool, .of_same (fun _ => trivial) rfl⟩
          | some configs =>
              simp only [act, Option.ite_none_left_eq_some] at h
              cases h.2
              obtain ⟨added, hadded, -, -, hworkers⟩ := installPools_spec configs sh
              have hlt := (List.getElem?_eq_some_iff.mp hpool).1
              refine ⟨pool, ?_, .of_elsewhere (fun _ => trivial) rfl ?_⟩
              · rw [hadded, List.getElem?_append_left hlt, hpool]
              · rw [(hworkers p).2, if_neg (by omega)]
      | cons q pools =>
          simp only [act, Option.map_eq_some_iff] at h
          obtain ⟨own, hown, h⟩ := h
          cases h
          by_cases hq : p = q
          · obtain rfl := hq
            exact ⟨_, getElem?_setPool ⟨pool, hpool⟩ _,
              .of_nothing_queued (fun _ => trivial) rfl⟩
          · refine ⟨pool, ?_, .of_same (fun _ => trivial) rfl⟩
            exact (List.getElem?_set_ne (Ne.symm hq)).trans hpool
  | enqueue poolName item =>
      simp only [act, Option.ite_none_left_eq_some] at h
      obtain ⟨-, h⟩ := h
      split at h <;> cases h <;> exact ⟨pool, hpool, .of_same (fun _ => trivial) rfl⟩
  | rejectQueuedAndWait caller stub | shutdown install =>
      simp only [act, Option.ite_none_left_eq_some] at h
      cases h.2
      exact ⟨pool, hpool, .of_same (fun _ => trivial) rfl⟩
  | rejecting caller stub queued | rejectingPool q queued pools install =>
      cases queued with
      | nil =>
          cases h
          exact ⟨pool, hpool, .of_same (fun _ => trivial) rfl⟩
      | cons item queued =>
          simp only [act, Option.some.injEq] at h
          obtain ⟨hsame, hfree⟩ := rejectItem_free h fun _ => rfl
          exact ⟨pool, by rw [hsame, hpool], .of_same (fun _ => trivial) (hfree p)⟩
  | awaiting caller stub =>
      simp only [act, Option.ite_none_right_eq_some] at h
      cases h.2
      exact ⟨pool, hpool, .of_same (fun _ => trivial) rfl⟩
  | configure pools =>
      simp only [act] at h
      split at h <;> cases h <;> exact ⟨pool, hpool, .of_same (fun _ => trivial) rfl⟩
  | joining q pools install =>
      simp only [act, Option.bind_eq_bind, Option.bind_eq_some_iff,
        Option.ite_none_right_eq_some] at h
      obtain ⟨own, -, -, h⟩ := h
      cases h
      exact ⟨pool, hpool, .of_same (fun _ => trivial) rfl⟩

/-- Pools that are installed have nothing in their queue yet. -/
theorem act_installed {sh sh' : Shared σ μ} {choice : Choice} {t : Thread σ μ}
    {next : List (Thread σ μ)} {l : Label σ μ} (h : act sh choice t = some (sh', next, l)) {p : ℕ}
    (hpool : sh.pools[p]? = none) {pool' : PoolState σ μ} (hpool' : sh'.pools[p]? = some pool') :
    pool'.queue = [] := by
  rw [List.getElem?_eq_none_iff] at hpool
  have hlt := (List.getElem?_eq_some_iff.mp hpool').1
  rcases act_spec h with ⟨q, pool, changed, -, hset, -⟩ | ⟨hsame, -⟩ | ⟨configs, -, rfl, -, -⟩
  · rw [hset, List.length_set] at hlt
    omega
  · rw [hsame] at hlt
    omega
  · obtain ⟨added, hadded, hfresh, -, -⟩ := installPools_spec configs sh
    rw [hadded, List.getElem?_append_right hpool] at hpool'
    exact (hfresh pool' (List.mem_of_getElem? hpool')).queue

/-- A step from a state that keeps moving leads to one if and only if the thread
that acts is prompt. -/
theorem keepsMoving_act_iff {sh sh' : Shared σ μ} {threads : Multiset (Thread σ μ)} {choice : Choice}
    {t : Thread σ μ} {next : List (Thread σ μ)} {l : Label σ μ}
    (hact : act sh choice t = some (sh', next, l)) (h : KeepsMoving ⟨sh, t ::ₘ threads⟩) :
    KeepsMoving ⟨sh', ↑next + threads⟩ ↔ Prompt ⟨sh, t ::ₘ threads⟩ t := by
  rw [keepsMoving_iff_attended] at h ⊢
  simp only [Prompt, count_cons, count_next, add_comm _ (count _ threads)] at h ⊢
  constructor
  · intro hafter p pool hpool
    obtain ⟨pool', hpool', hprompt⟩ := act_prompt hact p hpool
    exact (hprompt _ (h p pool hpool)).mp (hafter p pool' hpool')
  · intro hprompt p pool' hpool'
    cases hpool : sh.pools[p]? with
    | none =>
        exact fun _ => .inl (by simp [act_installed hact hpool hpool'])
    | some pool =>
        obtain ⟨changed, hchanged, hstep⟩ := act_prompt hact p hpool
        cases hpool'.symm.trans hchanged
        exact (hstep _ (h p pool hpool)).mpr (hprompt p pool hpool)

omit [DecidableEq σ] in
/-- A call that is made leaves the pools to their workers. -/
theorem keepsMoving_call {sh : Shared σ μ} {threads : Multiset (Thread σ μ)} {t : Thread σ μ}
    (hcall : t.isCall) (h : KeepsMoving ⟨sh, threads⟩) : KeepsMoving ⟨sh, t ::ₘ threads⟩ := by
  intro p pool hpool hstop earlier item later hqueue
  have hfree : t.freeFor p = 0 := by
    cases t <;> first | rfl | cases hcall
  rw [count_cons, hfree, zero_add]
  exact h p pool hpool hstop earlier item later hqueue

omit [DecidableEq σ] in
theorem keepsMoving_init : KeepsMoving (State.init : State σ μ) := by
  intro p pool hpool
  cases hpool

/-! ### Runs -/

/-- The runs in which the pools keep moving in every state that is reached are
those in which every thread that acts is prompt. -/
theorem keepsMoving_run_iff {trace : List (Label σ μ)} {s : State σ μ} :
    Run (fun s l s' => Step s l s' ∧ KeepsMoving s') .init trace s ↔
      Run (StepWhere Prompt) .init trace s := by
  constructor
  · intro h
    have hrun : Run (StepWhere Prompt) .init trace s ∧ KeepsMoving s := by
      refine h.invariant (P := fun trace s => Run (StepWhere Prompt) .init trace s ∧ KeepsMoving s)
        ⟨.nil, keepsMoving_init⟩ ?_
      rintro trace s l s' ⟨hrun, hmoving⟩ ⟨hstep, hmoving'⟩
      refine ⟨.snoc hrun ?_, hmoving'⟩
      cases hstep with
      | call t hcall hcaller => exact .call t hcall hcaller
      | act choice hact => exact .act choice hact ((keepsMoving_act_iff hact hmoving).mp hmoving')
    exact hrun.1
  · intro h
    have hrun : Run (fun s l s' => Step s l s' ∧ KeepsMoving s') .init trace s ∧ KeepsMoving s := by
      refine h.invariant (P := fun trace s =>
        Run (fun s l s' => Step s l s' ∧ KeepsMoving s') .init trace s ∧ KeepsMoving s)
        ⟨.nil, keepsMoving_init⟩ ?_
      rintro trace s l s' ⟨hrun, hmoving⟩ hstep
      cases hstep with
      | call t hcall hcaller =>
          have hmoving' := keepsMoving_call hcall hmoving
          exact ⟨.snoc hrun ⟨.call t hcall hcaller, hmoving'⟩, hmoving'⟩
      | act choice hact hok =>
          have hmoving' := (keepsMoving_act_iff hact hmoving).mpr hok
          exact ⟨.snoc hrun ⟨.act choice hact, hmoving'⟩, hmoving'⟩
    exact hrun.1

/-- Two messages come while the one worker of the pool waits. It takes the first
to its handler; the second stays behind it, and the second thread that the pool
may have is not started. -/
theorem not_keepsMoving : ∃ trace s, Run Step (State.init : State ℕ ℕ) trace s ∧ ¬ KeepsMoving s := by
  let go : Choice := ⟨false, true, false, false, false⟩
  let item (n : ℕ) : WorkItem ℕ ℕ := ⟨0, n, false, true, true⟩
  obtain ⟨trace, sh, threads, hrun, hcheck⟩ := @exists_run_of_play ℕ ℕ _
    [.call (.configure [⟨"pool", 2, 0, 0, .keepWorker, [1]⟩]), .act 0 go, .act 0 go, .act 0 go,
      .act 0 go, .call (.enqueue "pool" (item 1)), .act 0 go, .act 0 go,
      .call (.enqueue "pool" (item 2)), .act 0 go, .act 0 go, .act 0 go, .act 0 go]
    (fun _ sh threads => (sh.pools[0]?).any fun (pool : PoolState ℕ ℕ) => decide (pool.stopping = false ∧
      pool.queue = [item 2] ∧ pool.liveWorkers < pool.maxThreads ∧
      total (Thread.freeFor 0) threads = 0)) (by decide)
  obtain ⟨pool, hpool, hcheck⟩ := (Option.any_eq_true _ _).mp hcheck
  obtain ⟨hstop, hqueue, hlive, hfree⟩ := of_decide_eq_true hcheck
  refine ⟨trace, _, hrun, fun h => ?_⟩
  rcases h 0 pool hpool hstop [] (item 2) [] hqueue with hserved | hmax
  · exact absurd (hserved.trans_eq hfree) (lt_irrefl 0)
  · omega

end WorkerPools

end Esnacc
