import Esnacc.Rose.InvokeSteps

/-!
The counter of the deadlines and the thread that watches them: while an asynchronous
operation with a deadline is pending, the watchdog runs and is not asked to stop, or
a sender is about to start it.
-/

namespace Esnacc

namespace PendingInvokes

open PendingTable

/-- The thread of `EnsureWatchdogRunning`, wherever it stands. -/
def Caller.isWatchdog : Caller → Bool
  | .watchdog _ => true
  | _ => false

def Thread.isWatchdog : Thread → Bool
  | .watchdogScan | .watchdogWait _ | .processTimeouts | .watchdogExit => true
  | .finish _ _ _ caller | .claimed _ _ _ caller | .notifying _ caller | .notified _ _ caller
  | .callingBack _ caller => caller.isWatchdog
  | _ => false

/-- The thread has seen the counter at zero and is about to set the stop flag. -/
def Thread.stopsWatchdog : Thread → Bool
  | .notified stopWatchdog _ _ | .settingUp (.notified stopWatchdog) _ _ => stopWatchdog
  | _ => false

/-- The thread has stored the deadline of an operation and not counted it. -/
def Thread.counts (u : ℕ) : Thread → Bool
  | .settingUp .countDeadline v _ => decide (v = u)
  | _ => false

/-- The asynchronous operations in the table whose deadline is stored and counted. -/
def registered (s : State) : Finset ℕ :=
  (pendingWith s.shared fun op => op.bAsyncInvoke && op.asyncDeadline).toFinset.filter fun u =>
    s.threads.countP (fun t => t.counts u) = 0

/-- The counter is the number of the pending operations with a deadline. While it is
not zero the watchdog runs with its stop flag clear, or a sender is about to start it;
and where the watchdog scans or waits, its next steps lead to `ProcessAsyncTimeouts`
when the deadline passes. -/
def WatchdogAlive (s : State) : Prop :=
  s.shared.asyncDeadlineCount = (registered s).card ∧
  (registered s ≠ ∅ →
    (s.shared.watchdogThreadRunning = true ∧ s.shared.watchdogStopRequested = false ∧
      ∃ t ∈ s.threads, t.isWatchdog ∧ t ≠ .watchdogExit) ∨
    (s.shared.watchdogThreadRunning = false ∧
      ∃ u iTimeout, .settingUp .ensureWatchdog u iTimeout ∈ s.threads)) ∧
  (registered s ≠ ∅ → s.shared.watchdogThreadRunning = true →
    ∀ choice : Choice, choice.timedOut = true →
      act s.shared choice .watchdogScan = some (s.shared, [.watchdogWait true], .silent) ∧
      act s.shared choice (.watchdogWait false) = some (s.shared, [.watchdogScan], .silent) ∧
      act s.shared choice (.watchdogWait true) = some (s.shared, [.processTimeouts], .silent))

/-- A sender that is going to count a deadline has not done so yet. -/
def Setup.isCounted : Setup → Bool
  | .ensureWatchdog | .notify | .notified _ => true
  | _ => false

/-- No two pending invokes have one id. An operation with a time limit is not finished
before its sender has counted the deadline. And when a sender counts the first
deadline, no watchdog has been asked to stop and none is about to be. -/
def CountsInTime (s : State) (l : Label) : Prop :=
  l.isFresh = true ∧
  (∀ u, l = .finished u → ∀ stage iTimeout, .settingUp stage u iTimeout ∈ s.threads →
    stage.isCounted = true ∨ iTimeout ≤ 0) ∧
  (∀ u, l = .counted u → s.shared.asyncDeadlineCount = 0 →
    (s.shared.watchdogThreadRunning = true → s.shared.watchdogStopRequested = false) ∧
    ∀ t ∈ s.threads, t.stopsWatchdog = false)

theorem mem_registered {s : State} {u : ℕ} : u ∈ registered s ↔ u ∈ s.shared.table.pending ∧
    (∃ op, s.shared.object u = some op ∧ op.bAsyncInvoke = true ∧ op.asyncDeadline = true) ∧
    ∀ t ∈ s.threads, t.counts u = false := by
  simp only [registered, Finset.mem_filter, List.mem_toFinset, mem_pendingWith,
    Bool.and_eq_true, Multiset.countP_eq_zero, Bool.not_eq_true, and_assoc]

/-- What is true of an operation until a stage of its setup. -/
def Setup.Registers (iTimeout : ℤ) (pending : Prop) (op : PendingOperation) : Setup → Prop
  | .markAsync => op.asyncDeadline = false ∧ (0 < iTimeout → pending)
  | .markFireAndForget | .setContext =>
      op.bAsyncInvoke = true ∧ op.asyncDeadline = false ∧ (0 < iTimeout → pending)
  | .setDeadline => op.bAsyncInvoke = true ∧ op.asyncDeadline = false ∧ 0 < iTimeout ∧ pending
  | .countDeadline => op.bAsyncInvoke = true ∧ op.asyncDeadline = true ∧ 0 < iTimeout ∧ pending
  | _ => True

/-- What is true until a stage is true until the next one. -/
theorem Setup.Registers.next {pending : Prop} {op : PendingOperation} {stage stage' : Setup}
    {sh : Shared} {u : ℕ} {iTimeout : ℤ} (h : stage'.Registers iTimeout pending op)
    (hnext : .settingUp stage u iTimeout ∈ (setUp sh stage' u iTimeout).2.1) :
    stage.Registers iTimeout pending (stage'.write iTimeout op) := by
  cases stage' <;> grind [setUp, Setup.Registers, Setup.write]

structure Watched (s : State) : Prop where
  base : Base s
  registers : ∀ stage u iTimeout, .settingUp stage u iTimeout ∈ s.threads →
    ∃ op, s.shared.object u = some op ∧ stage.Registers iTimeout (u ∈ s.shared.table.pending) op
  count : s.shared.asyncDeadlineCount = (registered s).card
  watchdogs : s.threads.countP (fun t => t.isWatchdog) = s.shared.watchdogThreadRunning.toNat
  exit : .watchdogExit ∈ s.threads → s.shared.watchdogStopRequested = true
  stops : 0 < s.shared.asyncDeadlineCount → ∀ t ∈ s.threads, t.stopsWatchdog = false
  alive : 0 < s.shared.asyncDeadlineCount →
    (s.shared.watchdogThreadRunning = true ∧ s.shared.watchdogStopRequested = false) ∨
    (s.shared.watchdogThreadRunning = false ∧
      ∃ u iTimeout, .settingUp .ensureWatchdog u iTimeout ∈ s.threads)

/-! ### What a step does to the watchdog -/

/-- The flags and the counter after a step. -/
structure WatchStep (t : Thread) (sh sh' : Shared) (next : List Thread) (l : Label) : Prop where
  count : sh'.asyncDeadlineCount = sh.asyncDeadlineCount ∨
    (∃ u, l = .finished u ∧ sh'.asyncDeadlineCount ≤ sh.asyncDeadlineCount) ∨
    ∃ u iTimeout, t = .settingUp .countDeadline u iTimeout ∧
      sh'.asyncDeadlineCount = sh.asyncDeadlineCount + 1 ∧
      next = [.settingUp .ensureWatchdog u iTimeout] ∧
      sh'.watchdogStopRequested = sh.watchdogStopRequested ∧
      sh'.watchdogThreadRunning = sh.watchdogThreadRunning
  stop : sh'.watchdogStopRequested = sh.watchdogStopRequested ∨
    (t.stopsWatchdog = true ∧ sh'.watchdogStopRequested = true) ∨
    (sh.watchdogThreadRunning = false ∧ sh'.watchdogThreadRunning = true ∧
      sh'.watchdogStopRequested = false)
  running : sh'.watchdogThreadRunning = sh.watchdogThreadRunning ∨
    (sh.watchdogThreadRunning = false ∧ sh'.watchdogThreadRunning = true ∧
      sh'.watchdogStopRequested = false) ∨ t = .watchdogExit
  ensure : ∀ u iTimeout, t = .settingUp .ensureWatchdog u iTimeout →
    sh.watchdogThreadRunning = false →
    sh'.watchdogThreadRunning = true ∧ sh'.watchdogStopRequested = false
  watchdogs : (t.isWatchdog = true → sh.watchdogThreadRunning = true) →
    next.countP Thread.isWatchdog + sh.watchdogThreadRunning.toNat =
      sh'.watchdogThreadRunning.toNat + t.isWatchdog.toNat
  exit : .watchdogExit ∈ next → sh'.watchdogStopRequested = true
  stops : ∀ t' ∈ next, t'.stopsWatchdog = true → sh'.asyncDeadlineCount = 0

/-- Neither the flags nor the counter change. -/
theorem WatchStep.of_eq {t : Thread} {sh sh' : Shared} {next : List Thread} {l : Label}
    (hcount : sh'.asyncDeadlineCount = sh.asyncDeadlineCount)
    (hstop : sh'.watchdogStopRequested = sh.watchdogStopRequested)
    (hrunning : sh'.watchdogThreadRunning = sh.watchdogThreadRunning)
    (hensure : ∀ u iTimeout, t ≠ .settingUp .ensureWatchdog u iTimeout)
    (hwatchdogs : next.countP Thread.isWatchdog = t.isWatchdog.toNat)
    (hexit : .watchdogExit ∉ next)
    (hstops : ∀ t' ∈ next, t'.stopsWatchdog = false) : WatchStep t sh sh' next l where
  count := .inl hcount
  stop := .inl hstop
  running := .inl hrunning
  ensure u iTimeout ht := absurd ht (hensure u iTimeout)
  watchdogs _ := by rw [hrunning, hwatchdogs, Nat.add_comm]
  exit h := absurd h hexit
  stops t' ht' h := by
    rw [hstops t' ht'] at h
    cases h

/-- The threads before and after the step have nothing to do with the watchdog. -/
theorem WatchStep.plain {t : Thread} {sh sh' : Shared} {next : List Thread} {l : Label}
    (hsh : sh'.asyncDeadlineCount = sh.asyncDeadlineCount ∧
      sh'.watchdogStopRequested = sh.watchdogStopRequested ∧
      sh'.watchdogThreadRunning = sh.watchdogThreadRunning)
    (ht : t.isWatchdog = false) (hensure : ∀ u iTimeout, t ≠ .settingUp .ensureWatchdog u iTimeout)
    (hnext : ∀ t' ∈ next, t'.isWatchdog = false ∧ t'.stopsWatchdog = false) :
    WatchStep t sh sh' next l := by
  refine .of_eq hsh.1 hsh.2.1 hsh.2.2 hensure ?_ (fun h => ?_) fun t' ht' => (hnext t' ht').2
  · rw [ht, Bool.toNat_false, List.countP_eq_zero]
    intro t' ht'
    simp [(hnext t' ht').1]
  · cases (hnext _ h).1

theorem next_isWatchdog (caller : Caller) :
    caller.next.countP Thread.isWatchdog = caller.isWatchdog.toNat := by
  cases caller with
  | response => rfl
  | sender => rfl
  | pause p ids => cases ids <;> rfl
  | watchdog ids => cases ids <;> rfl

theorem next_quiet {caller : Caller} : .watchdogExit ∉ caller.next ∧
    ∀ t ∈ caller.next, t.stopsWatchdog = false := by
  refine ⟨fun h => ?_, fun t ht => ?_⟩
  · rcases mem_next h with ⟨p, h⟩ | h | ⟨id, r, caller', h⟩ <;> cases h
  · rcases mem_next ht with ⟨p, rfl⟩ | rfl | ⟨id, r, caller', rfl⟩ <;> rfl

/-- A caller of `FinishAsyncInvoke` goes on. -/
theorem WatchStep.next {t : Thread} {sh sh' : Shared} {caller : Caller} {l : Label}
    (hcount : sh'.asyncDeadlineCount = sh.asyncDeadlineCount)
    (hstop : sh'.watchdogStopRequested = sh.watchdogStopRequested)
    (hrunning : sh'.watchdogThreadRunning = sh.watchdogThreadRunning)
    (hensure : ∀ u iTimeout, t ≠ .settingUp .ensureWatchdog u iTimeout)
    (hwatchdogs : caller.isWatchdog = t.isWatchdog) : WatchStep t sh sh' caller.next l :=
  .of_eq hcount hstop hrunning hensure (by rw [next_isWatchdog, hwatchdogs]) next_quiet.1
    next_quiet.2

theorem setUp_watchStep (sh : Shared) (stage : Setup) (u : ℕ) (iTimeout : ℤ) :
    WatchStep (.settingUp stage u iTimeout) sh (setUp sh stage u iTimeout).1
      (setUp sh stage u iTimeout).2.1 (setUp sh stage u iTimeout).2.2 := by
  cases stage with
  | markAsync =>
      exact .of_eq rfl rfl rfl (by simp) rfl (by simp [setUp]) (by simp [setUp, Thread.stopsWatchdog])
  | markFireAndForget =>
      exact .of_eq rfl rfl rfl (by simp) rfl (by simp [setUp]) (by simp [setUp, Thread.stopsWatchdog])
  | setContext =>
      refine .of_eq rfl rfl rfl (by simp) ?_ ?_ ?_ <;> simp only [setUp] <;> split <;>
        simp [Thread.isWatchdog, Thread.stopsWatchdog]
  | setDeadline =>
      exact .of_eq rfl rfl rfl (by simp) rfl (by simp [setUp]) (by simp [setUp, Thread.stopsWatchdog])
  | countDeadline =>
      exact ⟨.inr (.inr ⟨u, iTimeout, rfl, rfl, rfl, rfl, rfl⟩), .inl rfl, .inl rfl, by simp,
        fun _ => by simp [setUp, Thread.isWatchdog], by simp [setUp],
        by simp [setUp, Thread.stopsWatchdog]⟩
  | ensureWatchdog =>
      cases hrun : sh.watchdogThreadRunning with
      | true =>
          simp only [setUp, hrun, if_true]
          exact ⟨.inl rfl, .inl rfl, .inl rfl, by simp [hrun],
            fun _ => by simp [Thread.isWatchdog], by simp, by simp [Thread.stopsWatchdog]⟩
      | false =>
          simp only [setUp, hrun, if_false, Bool.false_eq_true]
          exact ⟨.inl rfl, .inr (.inr ⟨hrun, rfl, rfl⟩), .inr (.inl ⟨hrun, rfl, rfl⟩),
            fun _ _ _ _ => ⟨rfl, rfl⟩, fun _ => by simp [List.countP_cons, Thread.isWatchdog, hrun], by simp,
            by simp [Thread.stopsWatchdog]⟩
  | notify =>
      exact ⟨.inl rfl, .inl rfl, .inl rfl, by simp, fun _ => by simp [setUp, Thread.isWatchdog],
        by simp [setUp], by simp [setUp, Thread.stopsWatchdog]⟩
  | notified stopWatchdog =>
      refine ⟨.inl rfl, ?_, .inl rfl, by simp, fun _ => by simp [setUp, Thread.isWatchdog],
        by simp [setUp], by simp [setUp, Thread.stopsWatchdog]⟩
      cases stopWatchdog with
      | false => exact .inl (by simp [setUp])
      | true => exact .inr (.inl ⟨rfl, by simp [setUp]⟩)

/-- The watchdog leaves only when it has been asked to stop. -/
theorem watch_next {sh sh' : Shared} {choice : Choice} {armed : Bool} {next : List Thread}
    {l : Label} (h : act sh choice (.watchdogWait armed) = some (sh', next, l)) :
    next = [.watchdogScan] ∨ next = [.processTimeouts] ∨
      (next = [.watchdogExit] ∧ sh.watchdogStopRequested = true) := by
  cases armed with
  | false =>
      simp only [act, watch] at h
      split at h
      · next hstop =>
          cases h
          exact .inr (.inr ⟨rfl, hstop.1⟩)
      · split at h <;> cases h
        exact .inl rfl
  | true =>
      simp only [act, watch] at h
      split at h
      · next hstop =>
          cases h
          split
          · exact .inr (.inr ⟨rfl, hstop⟩)
          · exact .inl rfl
      · split at h <;> cases h
        exact .inr (.inl rfl)

theorem act_watchStep {sh sh' : Shared} {choice : Choice} {t : Thread} {next : List Thread}
    {l : Label} (h : act sh choice t = some (sh', next, l)) : WatchStep t sh sh' next l := by
  cases t with
  | settingUp stage u iTimeout =>
      obtain rfl : _ = sh' := congrArg Prod.fst (Option.some.inj h)
      obtain rfl : _ = next := congrArg (·.2.1) (Option.some.inj h)
      obtain rfl : _ = l := congrArg (·.2.2) (Option.some.inj h)
      exact setUp_watchStep sh stage u iTimeout
  | finish id r message caller =>
      simp only [act] at h
      split at h
      · next claimed hclaim =>
          obtain ⟨op, -, -, -, heq⟩ := claim_eq_some hclaim
          cases h
          rw [heq]
          refine ⟨.inr (.inl ⟨claimed.1, rfl, ?_⟩), .inl rfl, .inl rfl, by simp, fun _ => ?_,
            by simp, by simp [Thread.stopsWatchdog]⟩
          · dsimp only
            split <;> omega
          · cases caller <;> simp [Thread.isWatchdog, Caller.isWatchdog, Nat.add_comm]
      · cases h
        exact .next rfl rfl rfl (by simp) rfl
  | claimed u r message caller =>
      simp only [act, Option.map_eq_some_iff] at h
      obtain ⟨op, -, h⟩ := h
      cases h
      exact .of_eq rfl rfl rfl (by simp) (by cases caller <;> rfl) (by simp)
        (by simp [Thread.stopsWatchdog])
  | notifying callback caller =>
      cases h
      exact ⟨.inl rfl, .inl rfl, .inl rfl, by simp,
        fun _ => by cases caller <;> simp [Thread.isWatchdog, Caller.isWatchdog, Nat.add_comm],
        by simp, by simp [Thread.stopsWatchdog]⟩
  | notified stopWatchdog callback caller =>
      cases h
      refine ⟨.inl rfl, ?_, .inl rfl, by simp,
        fun _ => by cases caller <;> simp [Thread.isWatchdog, Caller.isWatchdog, Nat.add_comm],
        by simp, by simp [Thread.stopsWatchdog]⟩
      cases stopWatchdog with
      | false => exact .inl (by simp)
      | true => exact .inr (.inl ⟨rfl, by simp⟩)
  | callingBack callback caller =>
      cases callback <;> cases h <;> exact .next rfl rfl rfl (by simp) rfl
  | completeAll p =>
      obtain ⟨table, htable⟩ := completeSync_eq_setTable sh (pendingWith sh fun op => !op.bAsyncInvoke)
      cases h
      rw [htable]
      exact .next rfl rfl rfl (by simp) rfl
  | processTimeouts =>
      cases h
      exact .next rfl rfl rfl (by simp) rfl
  | asyncSending u iTimeout =>
      obtain ⟨rfl, -, hnext⟩ := asyncSending_spec h
      refine .plain ⟨rfl, rfl, rfl⟩ rfl (by simp) fun t ht => ?_
      obtain ⟨id, r, rfl⟩ := hnext t ht
      exact ⟨rfl, rfl⟩
  | syncSending u iTimeout =>
      obtain ⟨hsh, -, hnext⟩ := syncSending_spec h
      refine .plain ?_ rfl (by simp) ?_
      · rcases hsh with rfl | ⟨r, rfl⟩ <;> exact ⟨rfl, rfl, rfl⟩
      · rcases hnext with rfl | rfl | ⟨r, rfl⟩ <;> simp [Thread.isWatchdog, Thread.stopsWatchdog]
  | watchdogScan =>
      cases h
      exact .of_eq rfl rfl rfl (by simp) rfl (by simp) (by simp [Thread.stopsWatchdog])
  | watchdogWait armed =>
      obtain ⟨rfl, -⟩ := watch_spec h
      rcases watch_next h with rfl | rfl | ⟨rfl, hstop⟩
      · exact .of_eq rfl rfl rfl (by simp) rfl (by simp) (by simp [Thread.stopsWatchdog])
      · exact .of_eq rfl rfl rfl (by simp) rfl (by simp) (by simp [Thread.stopsWatchdog])
      · exact ⟨.inl rfl, .inl rfl, .inl rfl, by simp,
          fun _ => by simp [Thread.isWatchdog, Nat.add_comm], fun _ => hstop,
          by simp [Thread.stopsWatchdog]⟩
  | watchdogExit =>
      cases h
      exact ⟨.inl rfl, .inl rfl, .inr (.inr rfl), by simp,
        fun hrun => by simp [Thread.isWatchdog, hrun rfl], by simp, by simp⟩
  | _ =>
      refine .plain ?_ rfl (by simp) ?_ <;>
        grind [act, wait, completePendingOperation, Thread.isWatchdog, Caller.isWatchdog,
          Thread.stopsWatchdog, Shared.modify, Shared.setTable, Option.map_eq_some_iff,
          Option.bind_eq_some_iff]

/-! ### What a step does to the counter -/

/-- No thread but the sender stores a deadline or counts it. -/
theorem act_counts {sh sh' : Shared} {choice : Choice} {t t' : Thread} {next : List Thread}
    {l : Label} {u : ℕ} (h : act sh choice t = some (sh', next, l)) (ht' : t' ∈ next)
    (hcounts : t'.counts u = true) : ∃ iTimeout, t = .settingUp .setDeadline u iTimeout := by
  obtain ⟨iTimeout, rfl⟩ : ∃ iTimeout, t' = .settingUp .countDeadline u iTimeout := by
    cases t' with
    | settingUp stage v iTimeout =>
        cases stage with
        | countDeadline => exact ⟨iTimeout, by rw [of_decide_eq_true hcounts]⟩
        | _ => cases hcounts
    | _ => cases hcounts
  rcases act_settingUp h ht' with ⟨hstage, -⟩ | ⟨stage, rfl, hnext⟩
  · cases hstage
  · cases stage <;> grind [setUp]

theorem counts_of_sender {t : Thread} {u : ℕ} (h : t.counts u = true) : t.sender = some u := by
  cases t with
  | settingUp stage v iTimeout =>
      cases stage with
      | countDeadline => exact congrArg some (of_decide_eq_true h)
      | _ => cases h
  | _ => cases h

/-- What is true until a stage stays true while other threads act. -/
theorem Watched.registers_step {sh sh' : Shared} {choice : Choice} {t : Thread}
    {threads : Multiset Thread} {next : List Thread} {l : Label}
    (h : Watched ⟨sh, t ::ₘ threads⟩) (hact : act sh choice t = some (sh', next, l))
    (hl : CountsInTime ⟨sh, t ::ₘ threads⟩ l) {stage : Setup} {u : ℕ} {iTimeout : ℤ}
    (ht : .settingUp stage u iTimeout ∈ ↑next + threads) :
    ∃ op, sh'.object u = some op ∧ stage.Registers iTimeout (u ∈ sh'.table.pending) op := by
  rcases Multiset.mem_add.mp ht with ht | ht
  · rcases act_settingUp hact (Multiset.mem_coe.mp ht) with ⟨rfl, kind, id, rfl⟩ |
      ⟨stage', rfl, hnext⟩
    · cases hact
      obtain hnone := Option.isNone_iff_eq_none.mp hl.1
      rw [Table.addPendingOperation_of_none hnone] at ht ⊢
      have heq := List.mem_singleton.mp (Multiset.mem_coe.mp ht)
      split at heq
      · cases heq
      · cases heq
        exact ⟨.create id, by simp [Shared.object, Shared.setTable], rfl,
          fun _ => List.mem_append_right _ (List.mem_singleton_self _)⟩
    · obtain ⟨op, hop, hregisters⟩ := h.registers stage' u iTimeout (Multiset.mem_cons_self _ _)
      obtain rfl : _ = sh' := congrArg Prod.fst (Option.some.inj hact)
      refine ⟨stage'.write iTimeout op, by rw [setUp_object, hop]; simp, ?_⟩
      rw [(setUp_quiet sh stage' u iTimeout).pending]
      exact hregisters.next hnext
  · obtain ⟨op, hop, hregisters⟩ := h.registers stage u iTimeout (Multiset.mem_cons_of_mem ht)
    have hsender := h.base.sender_ne ht rfl
    obtain ⟨op', hop', ⟨stage', iTimeout', rfl, -⟩ | ⟨-, hsame⟩⟩ := act_object hact hop
    · exact absurd rfl hsender
    have hpending (hearly : stage.isCounted = false) (hpos : 0 < iTimeout)
        (hu : u ∈ sh.table.pending) : u ∈ sh'.table.pending := by
      refine (h.base.mem_pending hact hl.1 hu fun hsync =>
        hsender (sender_of_syncSender hsync)).resolve_right fun hfinished => ?_
      rcases hl.2.1 u hfinished stage iTimeout (Multiset.mem_cons_of_mem ht) with hcounted | hneg
      · rw [hearly] at hcounted
        cases hcounted
      · omega
    obtain ⟨-, hasync, -, -, hdeadline⟩ := hsame
    refine ⟨op', hop', ?_⟩
    cases stage with
    | markAsync =>
        exact ⟨hdeadline.trans hregisters.1, fun hpos => hpending rfl hpos (hregisters.2 hpos)⟩
    | markFireAndForget =>
        exact ⟨hasync.trans hregisters.1, hdeadline.trans hregisters.2.1,
          fun hpos => hpending rfl hpos (hregisters.2.2 hpos)⟩
    | setContext =>
        exact ⟨hasync.trans hregisters.1, hdeadline.trans hregisters.2.1,
          fun hpos => hpending rfl hpos (hregisters.2.2 hpos)⟩
    | setDeadline =>
        obtain ⟨ha, hd, hpos, hu⟩ := hregisters
        exact ⟨hasync.trans ha, hdeadline.trans hd, hpos, hpending rfl hpos hu⟩
    | countDeadline =>
        obtain ⟨ha, hd, hpos, hu⟩ := hregisters
        exact ⟨hasync.trans ha, hdeadline.trans hd, hpos, hpending rfl hpos hu⟩
    | _ => trivial

/-- The operation is pending with a deadline. -/
def Deadlined (sh : Shared) (u : ℕ) : Prop :=
  u ∈ sh.table.pending ∧
    ∃ op, sh.object u = some op ∧ op.bAsyncInvoke = true ∧ op.asyncDeadline = true

/-- A deadline comes with the store of the sender and goes with the claim. -/
theorem Watched.deadlined_step {sh sh' : Shared} {choice : Choice} {t : Thread}
    {threads : Multiset Thread} {next : List Thread} {l : Label}
    (h : Watched ⟨sh, t ::ₘ threads⟩) (hact : act sh choice t = some (sh', next, l))
    (hfresh : l.isFresh = true) {u : ℕ} (hl : l ≠ .finished u)
    (ht : ∀ iTimeout, t ≠ .settingUp .setDeadline u iTimeout) :
    Deadlined sh' u ↔ Deadlined sh u := by
  cases hop : sh.object u with
  | none =>
      have hnew : ∀ op, sh'.object u = some op → op.bAsyncInvoke = false :=
        fun op => act_new hact hfresh hop
      simp only [Deadlined, hop, reduceCtorEq, false_and, exists_false, and_false, iff_false]
      rintro ⟨-, op, hop', hasync, -⟩
      rw [hnew op hop'] at hasync
      cases hasync
  | some op =>
      have hlt : u < sh.table.objects.length := (List.getElem?_eq_some_iff.mp hop).1
      obtain ⟨op', hop', hwrite⟩ := act_object hact hop
      simp only [Deadlined, hop, hop', Option.some.injEq, exists_eq_left']
      by_cases hsync : t.syncSender = some u
      · obtain ⟨-, op₁, hop₁, hfalse⟩ := h.base.sync t (Multiset.mem_cons_self _ _) u hsync
        obtain rfl : op = op₁ := Option.some.inj (hop.symm.trans hop₁)
        rcases hwrite with ⟨stage, iTimeout, rfl, -⟩ | ⟨-, hsame⟩
        · cases hsync
        · simp [hfalse, hsame.2.1]
      · have hpending : u ∈ sh'.table.pending ↔ u ∈ sh.table.pending :=
          ⟨fun hu => act_pending hact hfresh hu hlt,
            fun hu => (h.base.mem_pending hact hfresh hu hsync).resolve_right hl⟩
        rw [hpending]
        rcases hwrite with ⟨stage, iTimeout, rfl, rfl⟩ | ⟨-, hsame⟩
        · obtain ⟨op₁, hop₁, hregisters⟩ := h.registers stage u iTimeout (Multiset.mem_cons_self _ _)
          obtain rfl : op = op₁ := Option.some.inj (hop.symm.trans hop₁)
          cases stage with
          | markAsync => simp [Setup.write, hregisters.1]
          | setDeadline => exact absurd rfl (ht iTimeout)
          | _ => rfl
        · rw [hsame.2.1, hsame.2.2.2.2]

theorem mem_registered_mk {sh : Shared} {threads : Multiset Thread} {u : ℕ} :
    u ∈ registered ⟨sh, threads⟩ ↔ Deadlined sh u ∧ ∀ t ∈ threads, t.counts u = false := by
  rw [mem_registered, Deadlined, and_assoc]

/-- A step of another thread neither registers an operation nor removes it. -/
theorem Watched.mem_registered_step {sh sh' : Shared} {choice : Choice} {t : Thread}
    {threads : Multiset Thread} {next : List Thread} {l : Label}
    (h : Watched ⟨sh, t ::ₘ threads⟩) (hact : act sh choice t = some (sh', next, l))
    (hfresh : l.isFresh = true) {u : ℕ} (hl : l ≠ .finished u)
    (ht : ∀ iTimeout, t ≠ .settingUp .countDeadline u iTimeout) :
    u ∈ registered ⟨sh', ↑next + threads⟩ ↔ u ∈ registered ⟨sh, t ::ₘ threads⟩ := by
  rw [mem_registered_mk, mem_registered_mk]
  by_cases hset : ∃ iTimeout, t = .settingUp .setDeadline u iTimeout
  · -- the sender stores the deadline and is going to count it
    obtain ⟨iTimeout, rfl⟩ := hset
    obtain ⟨op, hop, hregisters⟩ := h.registers .setDeadline u iTimeout (Multiset.mem_cons_self _ _)
    constructor
    · rintro ⟨-, hcounts⟩
      cases hact
      have := hcounts (.settingUp .countDeadline u iTimeout)
        (Multiset.mem_add.mpr (.inl (Multiset.mem_coe.mpr (List.mem_singleton_self _))))
      simp [Thread.counts] at this
    · rintro ⟨⟨-, op', hop', -, hdeadline⟩, -⟩
      obtain rfl : op = op' := Option.some.inj (hop.symm.trans hop')
      rw [hregisters.2.1] at hdeadline
      cases hdeadline
  · have hcounts : t.counts u = false := by
      rw [Bool.eq_false_iff]
      intro hcounts
      cases t with
      | settingUp stage v iTimeout =>
          cases stage with
          | countDeadline => exact ht iTimeout (by rw [of_decide_eq_true hcounts])
          | _ => cases hcounts
      | _ => cases hcounts
    rw [h.deadlined_step hact hfresh hl fun iTimeout heq => hset ⟨iTimeout, heq⟩]
    refine and_congr_right fun _ => ⟨fun hall t' ht' => ?_, fun hall t' ht' => ?_⟩
    · rcases Multiset.mem_cons.mp ht' with rfl | ht'
      · exact hcounts
      · exact hall t' (Multiset.mem_add.mpr (.inr ht'))
    · rcases Multiset.mem_add.mp ht' with ht' | ht'
      · rw [Bool.eq_false_iff]
        intro hcounts'
        exact hset (act_counts hact (Multiset.mem_coe.mp ht') hcounts')
      · exact hall t' (Multiset.mem_cons_of_mem ht')

/-- The sender counts its deadline. -/
theorem Watched.registered_count {sh : Shared} {threads : Multiset Thread} {u : ℕ} {iTimeout : ℤ}
    (h : Watched ⟨sh, .settingUp .countDeadline u iTimeout ::ₘ threads⟩) :
    u ∉ registered ⟨sh, .settingUp .countDeadline u iTimeout ::ₘ threads⟩ ∧
      u ∈ registered ⟨{ sh with asyncDeadlineCount := sh.asyncDeadlineCount + 1 },
        ↑[Thread.settingUp .ensureWatchdog u iTimeout] + threads⟩ := by
  obtain ⟨op, hop, hasync, hdeadline, -, hu⟩ :=
    h.registers .countDeadline u iTimeout (Multiset.mem_cons_self _ _)
  rw [mem_registered_mk, mem_registered_mk]
  refine ⟨fun ⟨_, hcounts⟩ => ?_, ⟨hu, op, hop, hasync, hdeadline⟩, fun t ht => ?_⟩
  · have := hcounts _ (Multiset.mem_cons_self _ _)
    simp [Thread.counts] at this
  · rcases Multiset.mem_add.mp ht with ht | ht
    · rw [List.mem_singleton.mp (Multiset.mem_coe.mp ht)]
      rfl
    · rw [Bool.eq_false_iff]
      intro hcounts
      exact h.base.sender_ne ht (counts_of_sender hcounts) rfl

/-- The operation that is claimed is registered if it has a deadline. -/
theorem Watched.registered_claim {sh : Shared} {t : Thread} {threads : Multiset Thread} {u : ℕ}
    {op : PendingOperation} (h : Watched ⟨sh, t ::ₘ threads⟩)
    (hl : CountsInTime ⟨sh, t ::ₘ threads⟩ (.finished u)) (hu : u ∈ sh.table.pending)
    (hop : sh.object u = some op) (hasync : op.bAsyncInvoke = true) :
    u ∈ registered ⟨sh, t ::ₘ threads⟩ ↔ op.asyncDeadline = true := by
  rw [mem_registered_mk]
  constructor
  · rintro ⟨⟨-, op', hop', -, hdeadline⟩, -⟩
    obtain rfl : op = op' := Option.some.inj (hop.symm.trans hop')
    exact hdeadline
  · intro hdeadline
    refine ⟨⟨hu, op, hop, hasync, hdeadline⟩, fun t' ht' => ?_⟩
    rw [Bool.eq_false_iff]
    intro hcounts
    obtain ⟨iTimeout, rfl⟩ : ∃ iTimeout, t' = .settingUp .countDeadline u iTimeout := by
      cases t' with
      | settingUp stage v iTimeout =>
          cases stage with
          | countDeadline => exact ⟨iTimeout, by rw [of_decide_eq_true hcounts]⟩
          | _ => cases hcounts
      | _ => cases hcounts
    obtain ⟨-, -, -, -, hpos, -⟩ := h.registers _ u iTimeout ht'
    rcases hl.2.1 u rfl _ iTimeout ht' with hcounted | hneg
    · cases hcounted
    · omega

theorem Watched.count_step {sh sh' : Shared} {choice : Choice} {t : Thread}
    {threads : Multiset Thread} {next : List Thread} {l : Label}
    (h : Watched ⟨sh, t ::ₘ threads⟩) (hact : act sh choice t = some (sh', next, l))
    (hl : CountsInTime ⟨sh, t ::ₘ threads⟩ l) :
    sh'.asyncDeadlineCount = (registered ⟨sh', ↑next + threads⟩).card := by
  have hcount : sh.asyncDeadlineCount = (registered ⟨sh, t ::ₘ threads⟩).card := h.count
  by_cases hcounted : ∃ u iTimeout, t = .settingUp .countDeadline u iTimeout
  · obtain ⟨u, iTimeout, rfl⟩ := hcounted
    obtain ⟨hout, hin⟩ := h.registered_count
    cases hact
    have hinsert : registered ⟨{ sh with asyncDeadlineCount := sh.asyncDeadlineCount + 1 },
        ↑[Thread.settingUp .ensureWatchdog u iTimeout] + threads⟩ =
        insert u (registered ⟨sh, .settingUp .countDeadline u iTimeout ::ₘ threads⟩) := by
      ext v
      rw [Finset.mem_insert]
      by_cases hv : v = u
      · subst hv
        exact ⟨fun _ => .inl rfl, fun _ => hin⟩
      · rw [or_iff_right hv]
        refine @Watched.mem_registered_step _ _ choice _ _ _ _ h rfl hl.1 _ (by simp) ?_
        intro iTimeout' heq
        cases heq
        exact hv rfl
    rw [hinsert, Finset.card_insert_of_notMem hout, ← hcount]
  · have hnot : ∀ u iTimeout, t ≠ .settingUp .countDeadline u iTimeout :=
      fun u iTimeout heq => hcounted ⟨u, iTimeout, heq⟩
    by_cases hfinished : ∃ u, l = .finished u
    · obtain ⟨u, rfl⟩ := hfinished
      obtain ⟨id, r, m, caller, rfl⟩ := label_isOf hact
      have hother {v : ℕ} (hv : v ≠ u) := h.mem_registered_step hact hl.1
        (fun heq => hv (Label.finished.inj heq).symm) (hnot v)
      simp only [act] at hact
      split at hact
      · next claimed hclaim =>
          cases hact
          obtain ⟨op, hfind, hop, hasync, heq⟩ := claim_eq_some hclaim
          obtain ⟨hu, hid⟩ := (Table.find_eq_some h.base.good).mp hfind
          have herase : registered ⟨claimed.2, ↑[Thread.claimed claimed.1 r m caller] + threads⟩ =
              (registered ⟨sh, .finish id r m caller ::ₘ threads⟩).erase claimed.1 := by
            ext v
            rw [Finset.mem_erase]
            by_cases hv : v = claimed.1
            · subst hv
              refine ⟨fun hmem => absurd hid ?_, fun hmem => absurd rfl hmem.1⟩
              have hpending := (mem_registered_mk.mp hmem).1.1
              rw [heq] at hpending
              exact (Table.mem_removePendingOperation.mp hpending).2
            · rw [and_iff_right hv]
              exact hother hv
          have hmem := h.registered_claim hl hu hop hasync
          rw [herase, Finset.card_erase_eq_ite, ← hcount, heq]
          simp only [hmem]
      · cases hact
    · have hsame : registered ⟨sh', ↑next + threads⟩ = registered ⟨sh, t ::ₘ threads⟩ := by
        ext u
        exact h.mem_registered_step hact hl.1 (fun heq => hfinished ⟨u, heq⟩) (hnot u)
      rcases (act_watchStep hact).count with heq | ⟨u, rfl, -⟩ | ⟨u, iTimeout, rfl, -⟩
      · rw [hsame, heq, hcount]
      · exact absurd ⟨u, rfl⟩ hfinished
      · exact absurd rfl (hnot u iTimeout)

/-! ### The watchdog over a run -/

theorem watched_init : Watched .init := by
  refine ⟨base_init, by simp [State.init], ?_, by simp [State.init, Shared.init],
    by simp [State.init], by simp [State.init, Shared.init], by simp [State.init, Shared.init]⟩
  rfl

/-- The threads of a call have nothing to do with the watchdog. -/
theorem quiet_of_isCall {t : Thread} (h : t.isCall) :
    t.isWatchdog = false ∧ t.stopsWatchdog = false ∧ ∀ u, t.counts u = false := by
  cases t with
  | issuing | response | pause | resume => exact ⟨rfl, rfl, fun u => rfl⟩
  | _ => cases h

theorem Watched.call {sh : Shared} {threads : Multiset Thread} {t : Thread}
    (h : Watched ⟨sh, threads⟩) (hbase : Base ⟨sh, t ::ₘ threads⟩) (hcall : t.isCall) :
    Watched ⟨sh, t ::ₘ threads⟩ := by
  obtain ⟨hwatchdog, hstops, hcounts⟩ := quiet_of_isCall hcall
  have hnone := operation_of_isCall hcall
  refine ⟨hbase, fun stage u iTimeout ht => ?_, ?_, ?_, fun ht => ?_, fun hpos t' ht' => ?_,
    fun hpos => ?_⟩
  · rcases Multiset.mem_cons.mp ht with rfl | ht
    · cases hnone
    · exact h.registers stage u iTimeout ht
  · have hsame : registered ⟨sh, t ::ₘ threads⟩ = registered ⟨sh, threads⟩ := by
      ext u
      rw [mem_registered_mk, mem_registered_mk, Multiset.forall_mem_cons, hcounts u]
      simp
    rw [hsame]
    exact h.count
  · rw [Multiset.countP_cons_of_neg _ (by simp [hwatchdog])]
    exact h.watchdogs
  · rcases Multiset.mem_cons.mp ht with rfl | ht
    · cases hwatchdog
    · exact h.exit ht
  · rcases Multiset.mem_cons.mp ht' with rfl | ht'
    · exact hstops
    · exact h.stops hpos t' ht'
  · refine (h.alive hpos).imp_right fun ⟨hrunning, u, iTimeout, ht⟩ => ⟨hrunning, u, iTimeout, ?_⟩
    exact Multiset.mem_cons_of_mem ht

theorem Watched.running_of_isWatchdog {s : State} (h : Watched s) {t : Thread}
    (ht : t ∈ s.threads) (hwatchdog : t.isWatchdog = true) :
    s.shared.watchdogThreadRunning = true := by
  have hpos : 0 < s.threads.countP (fun t => t.isWatchdog) :=
    Multiset.countP_pos.mpr ⟨t, ht, hwatchdog⟩
  rw [h.watchdogs] at hpos
  cases hrunning : s.shared.watchdogThreadRunning with
  | true => rfl
  | false =>
      rw [hrunning] at hpos
      cases hpos

theorem Watched.watchdogs_step {sh sh' : Shared} {choice : Choice} {t : Thread}
    {threads : Multiset Thread} {next : List Thread} {l : Label}
    (h : Watched ⟨sh, t ::ₘ threads⟩) (hact : act sh choice t = some (sh', next, l)) :
    (↑next + threads).countP (fun t => t.isWatchdog) = sh'.watchdogThreadRunning.toNat := by
  have hstep := (act_watchStep hact).watchdogs
    (h.running_of_isWatchdog (Multiset.mem_cons_self t threads))
  have hbefore : (t ::ₘ threads).countP (fun t => t.isWatchdog) = sh.watchdogThreadRunning.toNat :=
    h.watchdogs
  have hnext : Multiset.countP (fun t => t.isWatchdog) (next : Multiset Thread) =
      next.countP Thread.isWatchdog := by
    rw [Multiset.coe_countP]
    simp
  have ht : (if t.isWatchdog = true then 1 else 0) = t.isWatchdog.toNat := by
    cases t.isWatchdog <;> rfl
  rw [Multiset.countP_cons, ht] at hbefore
  rw [Multiset.countP_add, hnext]
  omega

theorem Watched.alive_step {sh sh' : Shared} {choice : Choice} {t : Thread}
    {threads : Multiset Thread} {next : List Thread} {l : Label}
    (h : Watched ⟨sh, t ::ₘ threads⟩) (hact : act sh choice t = some (sh', next, l))
    (hl : CountsInTime ⟨sh, t ::ₘ threads⟩ l) (hpos : 0 < sh'.asyncDeadlineCount) :
    (sh'.watchdogThreadRunning = true ∧ sh'.watchdogStopRequested = false) ∨
    (sh'.watchdogThreadRunning = false ∧
      ∃ u iTimeout, .settingUp .ensureWatchdog u iTimeout ∈ ↑next + threads) := by
  have hstep := act_watchStep hact
  have hmem := Multiset.mem_cons_self t threads
  by_cases hbefore : 0 < sh.asyncDeadlineCount
  · have hstops : t.stopsWatchdog = false := h.stops hbefore t hmem
    have hstop := hstep.stop
    rw [hstops] at hstop
    have halive : (sh.watchdogThreadRunning = true ∧ sh.watchdogStopRequested = false) ∨
        (sh.watchdogThreadRunning = false ∧
          ∃ u iTimeout, .settingUp .ensureWatchdog u iTimeout ∈ t ::ₘ threads) := h.alive hbefore
    rcases halive with ⟨hrunning, hclear⟩ | ⟨hrunning, u, iTimeout, ht⟩
    · -- the watchdog runs on: it does not leave without a stop, and none is set
      have hexit : t ≠ .watchdogExit := by
        rintro rfl
        cases hclear.symm.trans (h.exit hmem)
      have hrunning' := hstep.running
      simp only [hrunning, hclear] at hstop hrunning'
      grind
    · rcases Multiset.mem_cons.mp ht with rfl | ht
      · exact .inl (hstep.ensure u iTimeout rfl hrunning)
      · rcases hstep.running with heq | ⟨-, hstart⟩ | rfl
        · exact .inr ⟨heq.trans hrunning, u, iTimeout, Multiset.mem_add.mpr (.inr ht)⟩
        · exact .inl hstart
        · cases hrunning.symm.trans (h.running_of_isWatchdog hmem rfl)
  · -- the first deadline is counted
    rcases hstep.count with heq | ⟨u, -, hle⟩ | ⟨u, iTimeout, rfl, -, rfl, hstop, hrunning⟩
    · omega
    · omega
    · have hlabel : l = .counted u := (congrArg (·.2.2) (Option.some.inj hact)).symm
      have hzero : sh.asyncDeadlineCount = 0 := by omega
      have hclear := (hl.2.2 u hlabel hzero).1
      rw [hstop, hrunning]
      cases hrun : sh.watchdogThreadRunning with
      | true => exact .inl ⟨rfl, hclear hrun⟩
      | false =>
          exact .inr ⟨rfl, u, iTimeout,
            Multiset.mem_add.mpr (.inl (Multiset.mem_coe.mpr (List.mem_singleton_self _)))⟩

theorem Watched.stops_step {sh sh' : Shared} {choice : Choice} {t : Thread}
    {threads : Multiset Thread} {next : List Thread} {l : Label}
    (h : Watched ⟨sh, t ::ₘ threads⟩) (hact : act sh choice t = some (sh', next, l))
    (hl : CountsInTime ⟨sh, t ::ₘ threads⟩ l) (hpos : 0 < sh'.asyncDeadlineCount) :
    ∀ t' ∈ ↑next + threads, t'.stopsWatchdog = false := by
  have hstep := act_watchStep hact
  intro t' ht'
  rcases Multiset.mem_add.mp ht' with hnext | hother
  · rw [Bool.eq_false_iff]
    intro hstops
    have := hstep.stops t' (Multiset.mem_coe.mp hnext) hstops
    omega
  · by_cases hbefore : 0 < sh.asyncDeadlineCount
    · exact h.stops hbefore t' (Multiset.mem_cons_of_mem hother)
    · rcases hstep.count with heq | ⟨u, -, hle⟩ | ⟨u, iTimeout, rfl, -, rfl, -, -⟩
      · omega
      · omega
      · have hlabel : l = .counted u := (congrArg (·.2.2) (Option.some.inj hact)).symm
        have hzero : sh.asyncDeadlineCount = 0 := by omega
        exact (hl.2.2 u hlabel hzero).2 t' (Multiset.mem_cons_of_mem hother)

theorem Watched.exit_step {sh sh' : Shared} {choice : Choice} {t : Thread}
    {threads : Multiset Thread} {next : List Thread} {l : Label}
    (h : Watched ⟨sh, t ::ₘ threads⟩) (hact : act sh choice t = some (sh', next, l))
    (ht : .watchdogExit ∈ ↑next + threads) : sh'.watchdogStopRequested = true := by
  have hstep := act_watchStep hact
  rcases Multiset.mem_add.mp ht with ht | ht
  · exact hstep.exit (Multiset.mem_coe.mp ht)
  · have hbefore : sh.watchdogStopRequested = true := h.exit (Multiset.mem_cons_of_mem ht)
    have hrunning : sh.watchdogThreadRunning = true :=
      h.running_of_isWatchdog (Multiset.mem_cons_of_mem ht) rfl
    rcases hstep.stop with heq | hstops | ⟨hnot, -⟩
    · exact heq.trans hbefore
    · exact hstops.2
    · cases hnot.symm.trans hrunning

theorem Watched.step {s s' : State} {l : Label} (h : Watched s) (hstep : Step s l s')
    (hl : CountsInTime s l) : Watched s' := by
  have hbase := h.base.step hstep hl.1
  cases hstep with
  | call t hcall howner => exact h.call hbase hcall
  | act choice hact =>
      exact ⟨hbase, fun stage u iTimeout => h.registers_step hact hl, h.count_step hact hl,
        h.watchdogs_step hact, h.exit_step hact, h.stops_step hact hl, h.alive_step hact hl⟩

/-- The watchdog sees the deadlines that are counted. -/
theorem scan_armed {s : State} (h : registered s ≠ ∅) (choice : Choice) :
    act s.shared choice .watchdogScan = some (s.shared, [.watchdogWait true], .silent) := by
  obtain ⟨u, hu⟩ := Finset.nonempty_iff_ne_empty.mpr h
  have hmem : u ∈ pendingWith s.shared fun op => op.bAsyncInvoke && op.asyncDeadline :=
    List.mem_toFinset.mp (Finset.mem_filter.mp hu).1
  have harmed : (pendingWith s.shared fun op => op.bAsyncInvoke && op.asyncDeadline).isEmpty =
      false := by
    rw [Bool.eq_false_iff, ne_eq, List.isEmpty_iff]
    exact List.ne_nil_of_mem hmem
  simp only [act, harmed, Bool.not_false]

theorem watchdog_alive {trace : List Label} {s : State}
    (h : Transition.Run (Transition.restrict Step CountsInTime) .init trace s) :
    WatchdogAlive s := by
  have hwatched : Watched s :=
    h.state_invariant watched_init fun s l s' hwatched hstep => hwatched.step hstep.1 hstep.2
  have hpos (hne : registered s ≠ ∅) : 0 < s.shared.asyncDeadlineCount := by
    rw [hwatched.count, Finset.card_pos]
    exact Finset.nonempty_iff_ne_empty.mpr hne
  refine ⟨hwatched.count, fun hne => ?_, fun hne hrunning choice htimedOut => ?_⟩
  · refine (hwatched.alive (hpos hne)).imp_left fun ⟨hrunning, hclear⟩ => ⟨hrunning, hclear, ?_⟩
    have hcount := hwatched.watchdogs
    rw [hrunning] at hcount
    obtain ⟨t, ht, hwatchdog⟩ := Multiset.countP_pos.mp (by rw [hcount]; decide)
    refine ⟨t, ht, hwatchdog, ?_⟩
    rintro rfl
    cases hclear.symm.trans (hwatched.exit ht)
  · have hclear : s.shared.watchdogStopRequested = false := by
      rcases hwatched.alive (hpos hne) with ⟨-, hclear⟩ | ⟨hnot, -⟩
      · exact hclear
      · cases hnot.symm.trans hrunning
    refine ⟨scan_armed hne choice, ?_, ?_⟩
    · simp [act, watch, hclear, hpos hne]
    · simp [act, watch, hclear, htimedOut]

/-- An invoke with a time limit is pending and the watchdog waits for its deadline. -/
theorem watchdog_alive_waiting : WatchdogAlive
    ⟨⟨true, ⟨1, [⟨1, none, 0, false, true, false, true, true⟩], [0]⟩, 1, false, true⟩,
      ↑[Thread.watchdogWait true]⟩ := by
  let choice : Choice := ⟨some 0, false, [], 0⟩
  refine watchdog_alive (@Threads.run_of_playWhile _ _ _ _ system _
    (fun sh threads l => l.isFresh && match l with
      | .finished _ => false
      | .counted _ => (!sh.watchdogThreadRunning || !sh.watchdogStopRequested) &&
          threads.all fun t => !t.stopsWatchdog
      | _ => true) ?_
    [.call (.issuing .async 1000), .act 0 choice, .act 0 choice, .act 0 choice, .act 0 choice,
      .act 0 choice, .act 0 choice, .act 0 choice, .act 0 choice, .act 0 choice, .act 1 choice,
      .act 0 choice, .act 0 choice, .act 0 choice] .init _ [] _
    [.silent, .issued 1, .silent, .added 0 true, .silent, .silent, .silent, .silent, .counted 0,
      .silent, .silent, .silent, .sent 0 (some 0), .silent] (by decide))
  intro sh threads l h
  simp only [Bool.and_eq_true] at h
  refine ⟨h.1, ?_, ?_⟩
  · rintro u rfl
    cases h.2
  · rintro u rfl -
    obtain ⟨hrunning, hstops⟩ := Bool.and_eq_true_iff.mp h.2
    refine ⟨fun (hrun : sh.watchdogThreadRunning = true) => by simpa [hrun] using hrunning,
      fun t ht => ?_⟩
    simpa using List.all_eq_true.mp hstops t (Multiset.mem_coe.mp ht)

/-- An invoke is answered and the finisher sees the counter at zero. Before it sets the
stop flag a second invoke counts its deadline and finds the watchdog running. The flag
stays set, and the watchdog no longer processes timeouts. -/
theorem not_watchdogAlive :
    ¬ ∀ (trace : List Label) (s : State), Transition.Run Step .init trace s →
      WatchdogAlive s := by
  intro h
  let choice : Choice := ⟨some 0, false, [], 0⟩
  have hplay : (Threads.play system [.call (.issuing .async 1000), .act 0 choice, .act 0 choice,
      .act 0 choice, .act 0 choice, .act 0 choice, .act 0 choice, .act 0 choice, .act 0 choice,
      .act 0 choice, .act 1 choice, .act 0 choice, .act 0 choice, .act 0 choice,
      .call (.response 1 ⟨0, 5⟩), .act 0 choice, .act 0 choice, .act 0 choice, .act 0 choice,
      .call (.issuing .async 1000), .act 0 choice, .act 0 choice, .act 0 choice, .act 0 choice,
      .act 0 choice, .act 0 choice, .act 0 choice, .act 0 choice, .act 0 choice, .act 0 choice,
      .act 0 choice, .act 0 choice, .act 0 choice] (.init, [])).map Prod.snd =
      some (⟨true, ⟨2, [⟨1, none, 0, false, true, false, true, true⟩,
        ⟨2, none, 0, false, true, false, true, true⟩], [1]⟩, 1, true, true⟩,
        [.callingBack (some (0, 5)) .response, .watchdogWait true]) := by
    decide
  obtain ⟨⟨trace, last⟩, hplay, rfl⟩ := Option.map_eq_some_iff.mp hplay
  obtain ⟨-, halive, -⟩ := h trace _ (Threads.run_of_play hplay)
  rcases halive (by decide) with ⟨-, hclear, -⟩ | ⟨hrunning, -⟩
  · cases hclear
  · cases hrunning

end PendingInvokes

end Esnacc
