import Esnacc.Rose.PoolSteps

/-!
Every message that a pool accepts is completed exactly once, provided that no
completion throws while a list of rejected messages is worked off, no gate
throws and every message comes with a completion: those are the places where the
source drops messages. In every run, what was accepted is what was completed,
what was dropped and what is still held.
-/

namespace Esnacc

namespace WorkerPools

open Transition

variable {σ μ : Type}

/-! ### Invariants -/

/-- The workers of a pool among the threads. -/
def workers (p : ℕ) (threads : Multiset (Thread σ μ)) : ℕ := (threads.map (Thread.worksFor p)).sum

/-- The workers of a pool that are blocked. -/
def waiting (p : ℕ) (threads : Multiset (Thread σ μ)) : ℕ := (threads.map (Thread.waitsFor p)).sum

/-- What the threads hold. -/
def handItems (threads : Multiset (Thread σ μ)) : Multiset (WorkItem σ μ) :=
  (threads.map Thread.items).sum

/-- What is in the queues. -/
def queuedItems (pools : List (PoolState σ μ)) : Multiset (WorkItem σ μ) :=
  (pools.map fun pool => (↑pool.queue : Multiset (WorkItem σ μ))).sum

/-- Messages that were accepted and have not been passed to a completion. -/
def State.held (s : State σ μ) : Multiset (WorkItem σ μ) :=
  queuedItems s.shared.pools + handItems s.threads

theorem sum_map_cons {M : Type} [AddCommMonoid M] (f : Thread σ μ → M) (t : Thread σ μ)
    (ts : Multiset (Thread σ μ)) : ((t ::ₘ ts).map f).sum = f t + (ts.map f).sum := by
  simp

theorem sum_map_next {M : Type} [AddCommMonoid M] (f : Thread σ μ → M) (next : List (Thread σ μ))
    (ts : Multiset (Thread σ μ)) :
    ((↑next + ts).map f).sum = total f next + (ts.map f).sum := by
  simp [total]

theorem workers_next (p : ℕ) (next : List (Thread σ μ)) (ts : Multiset (Thread σ μ)) :
    workers p ((next : Multiset (Thread σ μ)) + ts) =
      workers p ts + total (Thread.worksFor p) next := by
  rw [workers, sum_map_next, add_comm, workers]

theorem waiting_next (p : ℕ) (next : List (Thread σ μ)) (ts : Multiset (Thread σ μ)) :
    waiting p ((next : Multiset (Thread σ μ)) + ts) =
      waiting p ts + total (Thread.waitsFor p) next := by
  rw [waiting, sum_map_next, add_comm, waiting]

theorem waiting_le_workers (p : ℕ) (threads : Multiset (Thread σ μ)) :
    waiting p threads ≤ workers p threads := by
  refine Multiset.sum_map_le_sum_map _ _ fun t _ => ?_
  cases t with
  | worker q phase => cases phase <;> simp [Thread.waitsFor, Thread.worksFor]
  | _ => simp [Thread.waitsFor]

/-- Replacing one summand. -/
theorem sum_map_set {α M : Type} [AddCommMonoid M] (f : α → M) {l : List α} {i : ℕ} {a : α}
    (h : l[i]? = some a) (b : α) : ((l.set i b).map f).sum + f a = (l.map f).sum + f b := by
  induction l generalizing i with
  | nil => simp at h
  | cons c l ih =>
      cases i with
      | zero =>
          obtain rfl : c = a := by simpa using h
          simp only [List.set_cons_zero, List.map_cons, List.sum_cons]
          abel
      | succ i =>
          have hset := ih (by simpa using h)
          simp only [List.set_cons_succ, List.map_cons, List.sum_cons, add_assoc, hset]

/-- The counters of every pool are right. -/
structure PoolsInv (s : State σ μ) : Prop where
  pools : ∀ p pool, s.shared.pools[p]? = some pool →
    PoolInv pool (workers p s.threads) (waiting p s.threads)
  absent : ∀ p, s.shared.pools.length ≤ p → workers p s.threads = 0

variable [DecidableEq σ]

theorem poolsInv_step {s s' : State σ μ} {l : Label σ μ} (h : PoolsInv s) (hstep : Step s l s') :
    PoolsInv s' := by
  cases hstep with
  | call t hcall hcaller =>
      have hnone : ∀ p, t.worksFor p = 0 ∧ t.waitsFor p = 0 := by
        intro p
        cases t <;> simp_all [Thread.isCall, Thread.worksFor, Thread.waitsFor]
      constructor
      · intro p pool hpool
        simpa [workers, waiting, hnone] using h.pools p pool hpool
      · intro p hp
        simpa [workers, hnone] using h.absent p hp
  | @act sh sh' threads t next l choice hact =>
      have hpools : ∀ p pool, sh.pools[p]? = some pool →
          PoolInv pool (workers p threads + t.worksFor p) (waiting p threads + t.waitsFor p) := by
        intro p pool hpool
        have hinv := h.pools p pool hpool
        rwa [workers, waiting, sum_map_cons, sum_map_cons, add_comm, add_comm (t.waitsFor p)]
          at hinv
      have habsent : ∀ p, sh.pools.length ≤ p → t.worksFor p = 0 ∧ workers p threads = 0 := by
        intro p hp
        have h₀ := h.absent p hp
        rw [workers, sum_map_cons] at h₀
        exact Nat.add_eq_zero_iff.mp h₀
      rcases act_spec hact with ⟨p, pool, pool', hpool, hset, hchange⟩ | ⟨hsame, hquiet⟩ |
        ⟨configs, rfl, rfl, rfl, rfl⟩
      · constructor
        · intro q other hother
          simp only [hset] at hother
          rw [workers_next, waiting_next]
          by_cases hq : q = p
          · obtain rfl := hq
            have hlt := (List.getElem?_eq_some_iff.mp hpool).1
            rw [List.getElem?_set_self hlt] at hother
            cases hother
            exact hchange.keeps _ _ (hpools q pool hpool) (waiting_le_workers q threads)
          · rw [List.getElem?_set_ne (Ne.symm hq)] at hother
            obtain ⟨h₁, h₂, h₃, h₄, -, -⟩ := hchange.elsewhere q hq
            simpa [h₁, h₂, h₃, h₄] using hpools q other hother
        · intro q hq
          have hlen : sh.pools.length ≤ q := by simpa [hset] using hq
          have hlt := (List.getElem?_eq_some_iff.mp hpool).1
          obtain ⟨-, h₂, -⟩ := hchange.elsewhere q (by omega)
          simp only [workers_next]
          rw [(habsent q hlen).2, h₂]
      · constructor
        · intro q other hother
          simp only [hsame] at hother
          rw [workers_next, waiting_next]
          obtain ⟨h₁, h₂, h₃, h₄, -, -⟩ := hquiet.elsewhere q
          simpa [h₁, h₂, h₃, h₄] using hpools q other hother
        · intro q hq
          simp only [hsame] at hq
          simp only [workers_next]
          rw [(habsent q hq).2, (hquiet.elsewhere q).2.1]
      · obtain ⟨added, hadded, hfresh, -, hworkers⟩ := installPools_spec configs sh
        constructor
        · intro q other hother
          simp only [hadded] at hother
          simp only [workers_next, waiting_next]
          rw [(hworkers q).1, (hworkers q).2]
          by_cases hq : q < sh.pools.length
          · rw [List.getElem?_append_left hq] at hother
            rw [if_neg (by omega)]
            simpa [Thread.worksFor, Thread.waitsFor] using hpools q other hother
          · rw [List.getElem?_append_right (by omega)] at hother
            have hlt := (List.getElem?_eq_some_iff.mp hother).1
            have hwaits := waiting_le_workers q threads
            rw [(habsent q (by omega)).2] at hwaits ⊢
            rw [if_pos (by omega), Nat.le_zero.mp hwaits]
            exact (hfresh other (List.mem_of_getElem? hother)).inv
        · intro q hq
          simp only [hadded, List.length_append] at hq
          simp only [workers_next]
          rw [(habsent q (by omega)).2, (hworkers q).2, if_neg (by omega)]

theorem poolsInv_run {trace : List (Label σ μ)} {s : State σ μ} (h : Run Step .init trace s) :
    PoolsInv s := by
  refine h.state_invariant ⟨?_, ?_⟩ fun _ _ _ => poolsInv_step
  · intro p pool hpool
    simp [State.init] at hpool
  · intro p _
    simp [State.init, workers]

/-! ### The account of the messages -/

/-- The messages that `Enqueue` accepted. -/
def accepted (trace : List (Label σ μ)) : Multiset (WorkItem σ μ) :=
  total Label.accepted trace

/-- The messages that were passed to a completion. -/
def completed (trace : List (Label σ μ)) : Multiset (WorkItem σ μ) :=
  total Label.completedItems trace

def lost (trace : List (Label σ μ)) : Multiset (WorkItem σ μ) := total Label.lost trace

omit [DecidableEq σ] in
theorem queuedItems_set {pools : List (PoolState σ μ)} {p : ℕ} {pool pool' : PoolState σ μ}
    (h : pools[p]? = some pool) :
    queuedItems (pools.set p pool') + ↑pool.queue = queuedItems pools + ↑pool'.queue :=
  sum_map_set (fun pool => (↑pool.queue : Multiset (WorkItem σ μ))) h pool'

omit [DecidableEq σ] in
/-- A change of one summand on both sides of the account. -/
theorem account_of_change {A B q q' t n hand acc done gone : Multiset (WorkItem σ μ)}
    (hset : A + q = B + q') (hchange : q + t + acc = q' + n + done + gone) :
    B + (t + hand) + acc = A + (n + hand) + done + gone := by
  refine add_right_cancel (b := q') ?_
  calc B + (t + hand) + acc + q' = (B + q') + t + acc + hand := by abel
    _ = A + (q + t + acc) + hand := by
      rw [← hset]
      abel
    _ = A + (n + hand) + done + gone + q' := by
      rw [hchange]
      abel

theorem account_step {s s' : State σ μ} {l : Label σ μ} (hstep : Step s l s') :
    s.held + l.accepted = s'.held + l.completedItems + l.lost := by
  cases hstep with
  | @call sh threads t hcall hcaller =>
      have hnone : t.items = 0 := by
        cases t <;> simp_all [Thread.isCall, Thread.items]
      simp [State.held, handItems, hnone, Label.accepted, Label.completedItems, Label.lost]
  | @act sh sh' threads t next l choice hact =>
      simp only [State.held, handItems, sum_map_cons, sum_map_next]
      rcases act_spec hact with ⟨p, pool, pool', hpool, hset, hchange⟩ | ⟨hsame, hquiet⟩ |
        ⟨configs, rfl, rfl, rfl, rfl⟩
      · rw [hset]
        exact account_of_change (queuedItems_set hpool) hchange.account
      · rw [hsame]
        exact account_of_change (q := 0) (t := t.items) rfl (by simpa using hquiet.account)
      · obtain ⟨added, hadded, hfresh, hitems, -⟩ := installPools_spec configs sh
        have hempty : queuedItems added = 0 := by
          refine List.sum_eq_zero fun queue hqueue => ?_
          obtain ⟨pool, hpool, rfl⟩ := List.mem_map.mp hqueue
          rw [(hfresh pool hpool).queue]
          rfl
        have hsum : queuedItems (sh.pools ++ added) = queuedItems sh.pools := by
          rw [queuedItems, List.map_append, List.sum_append, ← queuedItems, ← queuedItems, hempty,
            add_zero]
        simp [hadded, hsum, hitems, Thread.items, Label.accepted, Label.completedItems,
          Label.lost]

/-- In every run, what was accepted was completed or lost, or is still held. -/
theorem account_run {trace : List (Label σ μ)} {s : State σ μ} (h : Run Step .init trace s) :
    accepted trace = completed trace + lost trace + s.held := by
  refine @Run.invariant _ _ _ _ _ _
    (fun trace s => accepted trace = completed trace + lost trace + s.held) h ?_ ?_
  · simp [accepted, completed, lost, State.held, State.init, queuedItems, handItems]
  · intro trace s l s' hinv hstep
    simp only [accepted, completed, lost, total_append, total_cons, total_nil, add_zero] at hinv ⊢
    rw [hinv, add_assoc, account_step hstep]
    abel

/-! ### The order of the messages -/

/-- The messages in the order in which they entered the queue of a pool. -/
def enqueuedTo (p : ℕ) (trace : List (Label σ μ)) : List (WorkItem σ μ) :=
  trace.flatMap (Label.enqueuedAt p)

/-- The messages in the order in which the workers of a pool started them. -/
def startedFrom (p : ℕ) (trace : List (Label σ μ)) : List (WorkItem σ μ) :=
  trace.flatMap (Label.takenAt p)

def queueAt (p : ℕ) (s : State σ μ) : List (WorkItem σ μ) :=
  ((s.shared.pools[p]?).map PoolState.queue).getD []

theorem order_step {s s' : State σ μ} {l : Label σ μ} (hstep : Step s l s') (p : ℕ) :
    (l.takenAt p ++ queueAt p s').Sublist (queueAt p s ++ l.enqueuedAt p) := by
  cases hstep with
  | call t hcall hcaller => simp [queueAt, Label.takenAt, Label.enqueuedAt]
  | @act sh sh' threads t next l choice hact =>
      rcases act_spec hact with ⟨q, pool, pool', hpool, hset, hchange⟩ | ⟨hsame, hquiet⟩ |
        ⟨configs, rfl, rfl, rfl, rfl⟩
      · by_cases hq : p = q
        · obtain rfl := hq
          have hlt := (List.getElem?_eq_some_iff.mp hpool).1
          rw [queueAt, queueAt, hset, List.getElem?_set_self hlt, hpool]
          exact hchange.order
        · obtain ⟨-, -, -, -, h₅, h₆⟩ := hchange.elsewhere p hq
          simp [queueAt, hset, List.getElem?_set_ne (Ne.symm hq), h₅, h₆]
      · obtain ⟨-, -, -, -, h₅, h₆⟩ := hquiet.elsewhere p
        simp [queueAt, hsame, h₅, h₆]
      · obtain ⟨added, hadded, hfresh, -, -⟩ := installPools_spec configs sh
        simp only [queueAt, hadded, Label.takenAt, Label.enqueuedAt, List.nil_append,
          List.append_nil]
        by_cases hp : p < sh.pools.length
        · rw [List.getElem?_append_left hp]
        · rw [List.getElem?_append_right (by omega)]
          cases hget : added[p - sh.pools.length]? with
          | none => simp
          | some pool => simp [(hfresh pool (List.mem_of_getElem? hget)).queue]

/-- What the workers of a pool have started, and then what is still queued,
stands in the order in which it was enqueued. -/
theorem order_run {trace : List (Label σ μ)} {s : State σ μ} (h : Run Step .init trace s) (p : ℕ) :
    (startedFrom p trace ++ queueAt p s).Sublist (enqueuedTo p trace) := by
  refine @Run.invariant _ _ _ _ _ _
    (fun trace s => (startedFrom p trace ++ queueAt p s).Sublist (enqueuedTo p trace)) h ?_ ?_
  · simp [startedFrom, enqueuedTo, queueAt, State.init]
  · intro trace s l s' hinv hstep
    simp only [startedFrom, enqueuedTo, List.flatMap_append, List.flatMap_singleton] at hinv ⊢
    have hlast := (order_step hstep p).append_left (trace.flatMap (Label.takenAt p))
    rw [← List.append_assoc, ← List.append_assoc] at hlast
    exact hlast.trans (hinv.append_right _)

/-! ### Progress -/

/-- The pools that a thread is going to visit. -/
def Thread.visits : Thread σ μ → List ℕ
  | .scanning _ _ pools _ | .stopping pools _ | .rejectingPool _ _ pools _ | .joining _ pools _ =>
      pools
  | _ => []

/-- Whoever refers to a pool refers to one that exists. -/
structure RefsInv (s : State σ μ) : Prop where
  registry : ∀ p ∈ s.shared.registry, p < s.shared.pools.length
  threads : ∀ t ∈ s.threads, ∀ p ∈ t.visits, p < s.shared.pools.length

omit [DecidableEq σ] in
theorem installPools_refs (configs : List PoolConfig) (sh : Shared σ μ)
    (h : ∀ p ∈ sh.registry, p < sh.pools.length) :
    (∀ p ∈ (installPools sh configs).1.registry, p < (installPools sh configs).1.pools.length) ∧
      ∀ u ∈ (installPools sh configs).2, u.visits = [] := by
  induction configs generalizing sh with
  | nil => exact ⟨h, by simp [installPools]⟩
  | cons config configs ih =>
      have hfirst : (∀ p ∈ (installPool sh config).1.registry,
          p < (installPool sh config).1.pools.length) ∧
          ∀ u ∈ (installPool sh config).2, u.visits = [] := by
        unfold installPool
        split
        · exact ⟨h, by simp⟩
        · constructor
          · intro p hp
            rcases List.mem_append.mp hp with hp | hp
            · have := h p hp
              simp
              omega
            · simp [List.mem_singleton.mp hp]
          · simp [Thread.visits]
      obtain ⟨hregistry, hvisits⟩ := ih (installPool sh config).1 hfirst.1
      refine ⟨hregistry, fun u hu => ?_⟩
      rcases List.mem_append.mp hu with hu | hu
      · exact hfirst.2 u hu
      · exact hvisits u hu

/-- A step refers to pools that were in the registry or that the thread referred
to before. -/
theorem act_refs {sh sh' : Shared σ μ} {choice : Choice} {t : Thread σ μ}
    {next : List (Thread σ μ)} {l : Label σ μ} (h : act sh choice t = some (sh', next, l))
    (hregistry : ∀ p ∈ sh.registry, p < sh.pools.length)
    (hvisits : ∀ p ∈ t.visits, p < sh.pools.length) :
    (∀ p ∈ sh'.registry, p < sh'.pools.length) ∧
      ∀ u ∈ next, ∀ p ∈ u.visits, p < sh'.pools.length := by
  have hlen : sh.pools.length ≤ sh'.pools.length := by
    rcases act_spec h with ⟨q, pool, pool', hpool, hset, hchange⟩ | ⟨hsame, hquiet⟩ |
      ⟨configs, rfl, rfl, rfl, rfl⟩
    · simp [hset]
    · simp [hsame]
    · obtain ⟨added, hadded, -⟩ := installPools_spec configs sh
      simp [hadded]
  have hold : ∀ p ∈ sh.registry, p < sh'.pools.length := fun p hp =>
    (hregistry p hp).trans_le hlen
  have hthis : ∀ p ∈ t.visits, p < sh'.pools.length := fun p hp => (hvisits p hp).trans_le hlen
  cases t with
  | worker p phase =>
      simp only [act, Option.bind_eq_bind, Option.bind_eq_some_iff] at h
      obtain ⟨pool, hpool, h⟩ := h
      obtain ⟨hsame, -, hworkers⟩ := workerMain_frame h
      refine ⟨hsame ▸ hold, fun u hu => ?_⟩
      obtain ⟨phase, rfl⟩ := hworkers u hu
      simp [Thread.visits]
  | enqueue poolName item =>
      simp only [act, Option.ite_none_left_eq_some] at h
      obtain ⟨-, h⟩ := h
      split at h <;> cases h <;> exact ⟨hold, by simp [Thread.visits]⟩
  | offering p item =>
      simp only [act, Option.map_eq_some_iff, offer] at h
      obtain ⟨pool, hpool, h⟩ := h
      split at h
      · cases h
        exact ⟨hold, by simp⟩
      · split at h
        · cases h
          exact ⟨hold, by simp⟩
        · simp only [Prod.mk.injEq] at h
          obtain ⟨rfl, rfl, rfl⟩ := h
          refine ⟨hold, fun u hu => ?_⟩
          obtain ⟨phase, rfl⟩ := ensureWorker_workers u hu
          simp [Thread.visits]
  | rejectQueuedAndWait caller stub =>
      simp only [act, Option.ite_none_left_eq_some] at h
      cases h.2
      exact ⟨hold, by simpa [Thread.visits] using hold⟩
  | scanning caller stub pools queued =>
      cases pools with
      | nil =>
          cases h
          exact ⟨hold, by simp [Thread.visits]⟩
      | cons p pools =>
          simp only [act, Option.map_eq_some_iff] at h
          obtain ⟨pool, hpool, h⟩ := h
          cases h
          refine ⟨hold, ?_⟩
          simp only [List.mem_singleton, forall_eq]
          exact fun q hq => hthis q (List.mem_cons_of_mem p hq)
  | rejecting caller stub queued =>
      cases queued with
      | nil =>
          cases h
          exact ⟨hold, by simp [Thread.visits]⟩
      | cons item queued =>
          simp only [act, rejectItem, Option.some.injEq] at h
          split_ifs at h <;> cases h <;> exact ⟨hold, by simp [Thread.visits]⟩
  | awaiting caller stub =>
      simp only [act, Option.ite_none_right_eq_some] at h
      cases h.2
      exact ⟨hold, by simp⟩
  | configure pools =>
      simp only [act] at h
      split at h <;> cases h <;> exact ⟨hold, by simp [Thread.visits]⟩
  | shutdown install =>
      simp only [act, Option.ite_none_left_eq_some] at h
      cases h.2
      exact ⟨by simp, by simpa [Thread.visits] using hold⟩
  | stopping pools install =>
      rcases pools with _ | ⟨p, pools⟩
      · cases install with
        | none =>
            cases h
            exact ⟨hold, by simp⟩
        | some configs =>
            simp only [act, Option.ite_none_left_eq_some] at h
            cases h.2
            obtain ⟨hnew, hnone⟩ := installPools_refs configs sh hregistry
            exact ⟨hnew, fun u hu => by simp [hnone u hu]⟩
      · simp only [act, Option.map_eq_some_iff] at h
        obtain ⟨pool, hpool, h⟩ := h
        cases h
        refine ⟨hold, ?_⟩
        simp only [List.mem_singleton, forall_eq]
        exact fun q hq => hthis q (List.mem_cons_of_mem p hq)
  | rejectingPool p queued pools install =>
      cases queued with
      | nil =>
          cases h
          exact ⟨hold, by simpa [Thread.visits] using hthis⟩
      | cons item queued =>
          simp only [act, rejectItem, Option.some.injEq] at h
          split_ifs at h <;> cases h <;> refine ⟨hold, ?_⟩
          · simp
          · simpa [Thread.visits] using hthis
          · simpa [Thread.visits] using hthis
  | joining p pools install =>
      simp only [act, Option.bind_eq_bind, Option.bind_eq_some_iff,
        Option.ite_none_right_eq_some] at h
      obtain ⟨pool, -, -, h⟩ := h
      cases h
      exact ⟨hold, by simpa [Thread.visits] using hthis⟩

theorem refsInv_step {s s' : State σ μ} {l : Label σ μ} (h : RefsInv s) (hstep : Step s l s') :
    RefsInv s' := by
  cases hstep with
  | call t hcall hcaller =>
      refine ⟨h.registry, fun u hu => ?_⟩
      rcases Multiset.mem_cons.mp hu with rfl | hu
      · cases u <;> simp_all [Thread.isCall, Thread.visits]
      · exact h.threads u hu
  | @act sh sh' threads t next l choice hact =>
      obtain ⟨hregistry, hnext⟩ := act_refs hact h.registry
        (h.threads t (Multiset.mem_cons_self t threads))
      refine ⟨hregistry, fun u hu p hp => ?_⟩
      rcases Multiset.mem_add.mp hu with hu | hu
      · exact hnext u hu p hp
      · have hlt := h.threads u (Multiset.mem_cons_of_mem hu) p hp
        rcases act_spec hact with ⟨q, pool, pool', hpool, hset, hchange⟩ | ⟨hsame, hquiet⟩ |
          ⟨configs, rfl, rfl, rfl, rfl⟩
        · simpa [hset] using hlt
        · simpa [hsame] using hlt
        · obtain ⟨added, hadded, -⟩ := installPools_spec configs sh
          simp only [hadded, List.length_append]
          exact Nat.lt_add_right _ hlt

theorem refsInv_run {trace : List (Label σ μ)} {s : State σ μ} (h : Run Step .init trace s) :
    RefsInv s :=
  h.state_invariant ⟨by simp [State.init], by simp [State.init]⟩ fun _ _ _ => refsInv_step

/-- No thread can do anything: everybody has returned or is blocked. -/
def State.Stuck (s : State σ μ) : Prop := ∀ t ∈ s.threads, ∀ choice, act s.shared choice t = none

/-- A worker of a pool with a nonempty queue can always go on. -/
theorem worker_progress {sh : Shared σ μ} {p : ℕ} {pool : PoolState σ μ} {phase : WorkerPhase σ μ}
    (hpool : sh.pools[p]? = some pool) (hqueue : pool.queue ≠ []) (choice : Choice) :
    act sh choice (.worker p phase) ≠ none := by
  have hwakes : wakes pool = true := by simp [wakes, hqueue]
  cases phase with
  | leaving retire => cases retire <;> simp [act, hpool, workerMain]
  | _ => simp [act, hpool, workerMain, hwakes]

/-- While a message is held, somebody can go on. -/
theorem held_eq_zero_of_stuck {s : State σ μ} (hpools : PoolsInv s) (hrefs : RefsInv s)
    (hstuck : s.Stuck) : s.held = 0 := by
  let choice : Choice := ⟨false, false, false, false, false⟩
  have hget : ∀ p, p < s.shared.pools.length → ∃ pool, s.shared.pools[p]? = some pool :=
    fun p hp => ⟨_, List.getElem?_eq_getElem hp⟩
  have hhand : handItems s.threads = 0 := by
    refine Multiset.sum_eq_zero fun items hitems => ?_
    obtain ⟨t, ht, rfl⟩ := Multiset.mem_map.mp hitems
    have hnone := hstuck t ht choice
    cases t with
    | worker p phase =>
        cases phase with
        | holding item =>
            have hp : p < s.shared.pools.length := by
              by_contra hp
              have h₀ := hpools.absent p (by omega)
              have h₁ := Multiset.single_le_sum (fun _ _ => Nat.zero_le _) _
                (Multiset.mem_map_of_mem (Thread.worksFor p) ht)
              rw [← workers, h₀, Thread.worksFor_self] at h₁
              omega
            obtain ⟨pool, hpool⟩ := hget p hp
            simp [act, hpool, workerMain] at hnone
        | _ => rfl
    | scanning caller stub pools queued =>
        cases pools with
        | nil => simp [act] at hnone
        | cons p pools =>
            obtain ⟨pool, hpool⟩ := hget p (hrefs.threads _ ht p (List.mem_cons_self ..))
            simp [act, hpool] at hnone
    | rejecting caller stub queued => cases queued <;> simp [act] at hnone
    | rejectingPool p queued pools install => cases queued <;> simp [act] at hnone
    | _ => rfl
  have hqueues : queuedItems s.shared.pools = 0 := by
    refine List.sum_eq_zero fun queue hqueue => ?_
    obtain ⟨pool, hmem, rfl⟩ := List.mem_map.mp hqueue
    obtain ⟨p, hlt, hpool⟩ := List.mem_iff_getElem.mp hmem
    have hpool' : s.shared.pools[p]? = some pool := by rw [List.getElem?_eq_getElem hlt, hpool]
    by_contra hne
    have hqueue : pool.queue ≠ [] := by simpa using hne
    -- a pool with something to do has a worker, and that worker can go on
    have hserved := (hpools.pools p pool hpool').served hqueue
    obtain ⟨t, ht, hworks⟩ : ∃ t ∈ s.threads, t.worksFor p ≠ 0 := by
      by_contra hnone
      push Not at hnone
      have : workers p s.threads = 0 := Multiset.sum_eq_zero fun n hn => by
        obtain ⟨t, ht, rfl⟩ := Multiset.mem_map.mp hn
        exact hnone t ht
      omega
    cases t with
    | worker q phase =>
        obtain rfl : q = p := by
          by_contra hq
          simp [Thread.worksFor, hq] at hworks
        exact worker_progress hpool' hqueue choice (hstuck _ ht choice)
    | _ => simp [Thread.worksFor] at hworks
  rw [State.held, hqueues, hhand, add_zero]

/-! ### Exactly once -/

/-- The step drops no message: no completion that is called from a list of
rejected messages throws while messages are left, no gate throws, and the
completion is installed. -/
def Label.Faultless : Label σ μ → Prop
  | .aborted _ abandoned => abandoned = []
  | .gateThrew _ | .notInstalled _ => False
  | _ => True

instance : DecidablePred (@Label.Faultless σ μ)
  | .aborted _ abandoned => decidable_of_iff (abandoned.isEmpty = true) List.isEmpty_iff
  | .gateThrew _ | .notInstalled _ => isFalse id
  | .queued _ _ | .refused _ _ | .taken _ _ | .completed _ _ | .scanStarted _ _ | .drained _ _
  | .silent => isTrue trivial

omit [DecidableEq σ] in
theorem lost_eq_zero {trace : List (Label σ μ)} (h : ∀ l ∈ trace, l.Faultless) :
    lost trace = 0 := by
  refine List.sum_eq_zero fun items hitems => ?_
  obtain ⟨l, hl, rfl⟩ := List.mem_map.mp hitems
  have hl := h l hl
  cases l <;> simp_all [Label.Faultless, Label.lost]

/-- In a run without faults every accepted message has been passed to exactly
one completion, once, or is still held; once nobody can go on, none is held. A
message that was never accepted is neither completed nor held, and the workers
of a pool start its messages in the order in which they were enqueued. -/
theorem completes_exactly_once {trace : List (Label σ μ)} {s : State σ μ}
    (h : Run (restrict Step fun _ l => l.Faultless) .init trace s) :
    accepted trace = completed trace + s.held ∧
      (s.Stuck → accepted trace = completed trace) ∧
      (∀ item, item ∉ accepted trace → item ∉ completed trace ∧ item ∉ s.held) ∧
      ∀ p, (startedFrom p trace).Sublist (enqueuedTo p trace) := by
  have hrun := h.of_restrict
  have haccount : accepted trace = completed trace + s.held := by
    rw [account_run hrun, lost_eq_zero h.forall_label, add_zero]
  refine ⟨haccount, fun hstuck => ?_, fun item hitem => ?_, fun p => ?_⟩
  · rw [haccount, held_eq_zero_of_stuck (poolsInv_run hrun) (refsInv_run hrun) hstuck, add_zero]
  · rw [haccount, Multiset.mem_add] at hitem
    exact ⟨fun h => hitem (.inl h), fun h => hitem (.inr h)⟩
  · exact (List.sublist_append_left _ _).trans (order_run hrun p)

/-- A registry with one pool, two messages of one stub in its queue, and the
shutdown that rejects them. -/
def shutdownSchedule (throws : Bool) : List (Move ℕ ℕ) :=
  let go : Choice := ⟨false, true, false, false, false⟩
  let item : ℕ → WorkItem ℕ ℕ := fun message => ⟨0, message, false, true, true⟩
  [.call (.configure [⟨"pool", 1, 0, 0, .keepWorker, [1]⟩]), .act 0 go, .act 0 go, .act 0 go,
    .call (.enqueue "pool" (item 1)), .act 0 go, .act 0 go,
    .call (.enqueue "pool" (item 2)), .act 0 go, .act 0 go,
    .call (.shutdown none), .act 0 go, .act 0 go,
    .act 0 { go with throws := throws }]

/-- The shutdown in the middle of its list: one message is rejected, one held. -/
theorem completes_exactly_once_shutdown : ∃ trace s,
    Run (restrict Step fun _ l => l.Faultless) (State.init : State ℕ ℕ) trace s ∧
      completed trace = {⟨0, 1, false, true, true⟩} ∧ s.held = {⟨0, 2, false, true, true⟩} ∧
      accepted trace = completed trace + s.held ∧
      ∀ p, (startedFrom p trace).Sublist (enqueuedTo p trace) := by
  obtain ⟨trace, sh, threads, hrun, hcheck⟩ := @exists_run_of_play ℕ ℕ _ (shutdownSchedule false)
    (fun trace sh threads => decide ((∀ l ∈ trace, l.Faultless) ∧
      completed trace = {⟨0, 1, false, true, true⟩} ∧
      (⟨sh, ↑threads⟩ : State ℕ ℕ).held = {⟨0, 2, false, true, true⟩})) (by decide)
  obtain ⟨hok, hcompleted, hheld⟩ := of_decide_eq_true hcheck
  have hrun := @Transition.Run.restrict_of_forall _ _ _ _ _ _ Label.Faultless hrun hok
  have h := completes_exactly_once hrun
  exact ⟨trace, _, hrun, hcompleted, hheld, h.1, h.2.2.2⟩

/-- The completion of the first message throws, and the second is gone: it was
accepted, nobody holds it any more, and it was passed to no completion. -/
theorem not_completes_exactly_once : ∃ trace s, ∃ item : WorkItem ℕ ℕ,
    Run Step (State.init : State ℕ ℕ) trace s ∧ item ∈ accepted trace ∧ item ∉ completed trace ∧
      item ∉ s.held := by
  obtain ⟨trace, sh, threads, hrun, hcheck⟩ := @exists_run_of_play ℕ ℕ _ (shutdownSchedule true)
    (fun trace sh threads => decide (⟨0, 2, false, true, true⟩ ∈ accepted trace ∧
      ⟨0, 2, false, true, true⟩ ∉ completed trace ∧
      ⟨0, 2, false, true, true⟩ ∉ (⟨sh, ↑threads⟩ : State ℕ ℕ).held)) (by decide)
  exact ⟨trace, _, _, hrun, of_decide_eq_true hcheck⟩

end WorkerPools

end Esnacc
