import Esnacc.Rose.InvokeSteps

/-!
What becomes of an operation that a pause completes while its sender is sending or
waiting.
-/

namespace Esnacc

namespace PendingInvokes

open PendingTable

/-- The operation holds the result of the pause and nothing else. -/
def Cancelled (u : ℕ) (sh : Shared) : Prop :=
  ∃ op, sh.object u = some op ∧ op.bAsyncInvoke = false ∧ op.pAnswerMessage = none ∧
    op.lRoseResult = ROSE_TE_SHUTDOWN

/-- A thread that cannot make the operation report anything but the shutdown. -/
def Thread.Reports (u : ℕ) : Thread → Prop
  | .syncSending v iTimeout => v = u → iTimeout ≠ 0
  | .syncAnswer v lRoseResult | .syncRemoving v lRoseResult =>
      v = u → lRoseResult = ROSE_TE_SHUTDOWN
  | .settingUp _ v _ | .claimed v _ _ _ => v ≠ u
  | _ => True

/-- No answer for the operation is stored, it is sent, its wait does not end by the
time limit, and no other invoke is given it. -/
def Label.Leaves (u : ℕ) : Label → Prop
  | .answered v | .timedOut v => v ≠ u
  | .sent v lRoseResult => v = u → lRoseResult = some ROSE_NOERROR
  | .added v isNew => v = u → isNew = true
  | _ => True

theorem Cancelled.of_object_eq {u : ℕ} {sh sh' : Shared} (h : Cancelled u sh)
    (heq : sh'.object u = sh.object u) : Cancelled u sh' := by
  rw [Cancelled, heq]
  exact h

/-- What is read of the operation. -/
theorem Cancelled.read {u : ℕ} {sh : Shared} {op : PendingOperation} (h : Cancelled u sh)
    (hop : sh.object u = some op) : op.bAsyncInvoke = false ∧ op.pAnswerMessage = none ∧
      op.lRoseResult = ROSE_TE_SHUTDOWN := by
  obtain ⟨op', hop', hrest⟩ := h
  obtain rfl : op = op' := Option.some.inj (hop.symm.trans hop')
  exact hrest

theorem Cancelled.modify {u v : ℕ} {sh : Shared} (h : Cancelled u sh)
    (f : PendingOperation → PendingOperation) (hne : u ≠ v) : Cancelled u (sh.modify v f) :=
  h.of_object_eq (sh.object_modify_of_ne f hne)

theorem Cancelled.complete {u v : ℕ} {sh : Shared} (h : Cancelled u sh) :
    Cancelled u (sh.modify v fun op => op.complete ROSE_TE_SHUTDOWN none) := by
  by_cases hv : u = v
  · obtain ⟨op, hop, hsync, hanswer, -⟩ := h
    refine ⟨op.complete ROSE_TE_SHUTDOWN none, ?_, hsync, ?_, rfl⟩
    · simp [Shared.object_modify, hop, if_pos hv]
    · simp [PendingOperation.complete, hanswer]
  · exact h.modify _ hv

theorem Cancelled.completeSync {u : ℕ} {sh : Shared} (h : Cancelled u sh) (us : List ℕ) :
    Cancelled u (completeSync sh us) := by
  unfold PendingInvokes.completeSync
  induction us generalizing sh with
  | nil => exact h
  | cons v us ih => exact ih h.complete

theorem Cancelled.next (caller : Caller) (u : ℕ) : ∀ t ∈ caller.next, t.Reports u := by
  intro t ht
  rcases mem_next ht with ⟨p, rfl⟩ | rfl | ⟨id, r, caller', rfl⟩ <;> trivial

theorem Cancelled.setUp {u v : ℕ} {sh : Shared} (h : Cancelled u sh) (hne : v ≠ u)
    (stage : Setup) (iTimeout : ℤ) : Cancelled u (setUp sh stage v iTimeout).1 := by
  refine h.of_object_eq ?_
  simp [setUp_object, Ne.symm hne]

theorem Cancelled.addPendingOperation {u : ℕ} {sh : Shared} (h : Cancelled u sh) (id : ℤ) :
    Cancelled u (sh.setTable (sh.table.addPendingOperation id).2) := by
  obtain ⟨op, hop, hrest⟩ := h
  exact ⟨op, sh.object_addPendingOperation id hop, hrest⟩

/-- A step that leaves the operation alone keeps what its sender will report. -/
theorem act_cancelled {u : ℕ} {sh sh' : Shared} {choice : Choice} {t : Thread}
    {next : List Thread} {l : Label} (hc : Cancelled u sh) (ht : t.Reports u) (hl : l.Leaves u)
    (h : act sh choice t = some (sh', next, l)) :
    Cancelled u sh' ∧ ∀ t' ∈ next, t'.Reports u := by
  cases t with
  -- neither the operation nor a thread that refers to it
  | issuing | notifying | notified | pause | pauseReturning | resume | watchdogScan
  | watchdogExit =>
      cases h
      exact ⟨hc, by simp [Thread.Reports]⟩
  | gate kind id iTimeout =>
      simp only [act] at h
      split at h <;> cases h
      · exact ⟨hc, by simp [Thread.Reports]⟩
      · exact ⟨hc, by simp⟩
  | adding kind id iTimeout =>
      have hne : (sh.table.addPendingOperation id).1 ≠ u := by
        intro heq
        obtain ⟨op, hop, -⟩ := hc
        obtain rfl : Label.added _ _ = l := congrArg (·.2.2) (Option.some.inj h)
        have hnew := Option.isNone_iff_eq_none.mp (hl heq)
        simp only [Table.addPendingOperation, hnew] at heq
        exact (List.getElem?_eq_some_iff.mp hop).1.ne heq.symm
      cases h
      refine ⟨hc.addPendingOperation id, fun t' ht' => ?_⟩
      rw [List.mem_singleton.mp ht']
      split
      · exact fun heq => absurd heq hne
      · exact hne
  | settingUp stage v iTimeout =>
      obtain rfl : _ = sh' := congrArg Prod.fst (Option.some.inj h)
      obtain rfl : _ = next := congrArg (·.2.1) (Option.some.inj h)
      refine ⟨hc.setUp ht stage iTimeout, fun t' ht' => ?_⟩
      rcases setUp_next ht' with rfl | ⟨stage', rfl⟩ | rfl
      · trivial
      · exact ht
      · trivial
  | asyncSending v iTimeout =>
      obtain ⟨rfl, -, hnext⟩ := asyncSending_spec h
      refine ⟨hc, fun t' ht' => ?_⟩
      obtain ⟨id, r, rfl⟩ := hnext t' ht'
      trivial
  | syncSending v iTimeout =>
      simp only [act] at h
      cases hsend : choice.send with
      | none =>
          rw [hsend] at h
          cases h
          exact ⟨hc, by simp⟩
      | some r =>
          rw [hsend] at h
          simp only [sendSync] at h
          split at h
          · cases h
            exact ⟨hc, by simp [Thread.Reports]⟩
          · next hwait =>
              cases h
              have hne : v ≠ u := fun heq =>
                hwait ⟨Option.some.inj (hl heq), ht heq⟩
              refine ⟨hc.modify _ hne.symm, fun t' ht' => ?_⟩
              rw [List.mem_singleton.mp ht']
              exact fun heq => absurd heq hne
  | syncWaiting v iTimeout =>
      simp only [act, Option.bind_eq_some_iff] at h
      obtain ⟨op, -, h⟩ := h
      simp only [wait] at h
      split at h
      · cases h
        refine ⟨?_, by simp [Thread.Reports]⟩
        obtain ⟨op', hop', hrest⟩ := hc
        rw [Cancelled, Shared.object_modify, hop']
        by_cases hv : u = v
        · exact ⟨_, rfl, by simpa [hv] using hrest⟩
        · exact ⟨_, rfl, by simpa [hv] using hrest⟩
      · split at h
        · cases h
          exact ⟨hc.modify _ (Ne.symm hl), by simpa [Thread.Reports] using fun heq => absurd heq hl⟩
        · cases h
  | syncWoken v =>
      simp only [act, Option.map_eq_some_iff] at h
      obtain ⟨op, hop, h⟩ := h
      cases h
      refine ⟨hc, fun t' ht' => ?_⟩
      rw [List.mem_singleton.mp ht']
      split
      · next hanswer =>
          rintro rfl
          simp [(hc.read hop).2.1] at hanswer
      · trivial
  | syncResult v =>
      simp only [act, Option.map_eq_some_iff] at h
      obtain ⟨op, hop, h⟩ := h
      cases h
      refine ⟨hc, fun t' ht' => ?_⟩
      rw [List.mem_singleton.mp ht']
      rintro rfl
      exact (hc.read hop).2.2
  | syncAnswer v r =>
      simp only [act, Option.map_eq_some_iff] at h
      obtain ⟨op, hop, h⟩ := h
      cases h
      refine ⟨hc, fun t' ht' => ?_⟩
      rw [List.mem_singleton.mp ht']
      rintro rfl
      rw [(hc.read hop).2.1]
      exact ht rfl
  | syncRemoving v r =>
      simp only [act, Option.map_eq_some_iff] at h
      obtain ⟨op, -, h⟩ := h
      cases h
      exact ⟨hc, by simp⟩
  | response id message =>
      simp only [act, Option.some.injEq, completePendingOperation] at h
      split at h
      · cases h
        exact ⟨hc, by simp⟩
      · split at h
        · cases h
          exact ⟨hc, by simp [Thread.Reports]⟩
        · cases h
          exact ⟨hc.modify _ (Ne.symm hl), by simp⟩
  | finish id r message caller =>
      simp only [act] at h
      split at h
      · next claimed hclaim =>
          obtain ⟨op, -, hop, hasync, hsh⟩ := claim_eq_some hclaim
          cases h
          refine ⟨hc.of_object_eq (by rw [hsh]; rfl), fun t' ht' => ?_⟩
          rw [List.mem_singleton.mp ht']
          rintro rfl
          simp [(hc.read hop).1] at hasync
      · cases h
        exact ⟨hc, Cancelled.next caller u⟩
  | claimed v r message caller =>
      simp only [act, Option.map_eq_some_iff] at h
      obtain ⟨op, -, h⟩ := h
      cases h
      exact ⟨hc, by simp [Thread.Reports]⟩
  | callingBack callback caller =>
      cases callback with
      | none =>
          cases h
          exact ⟨hc, Cancelled.next caller u⟩
      | some callback =>
          cases h
          exact ⟨hc, Cancelled.next caller u⟩
  | completeAll p =>
      cases h
      exact ⟨hc.completeSync _, Cancelled.next _ u⟩
  | watchdogWait armed =>
      obtain ⟨hsh, hnext⟩ := watch_spec h
      refine ⟨hsh ▸ hc, fun t' ht' => ?_⟩
      rcases hnext t' ht' with rfl | rfl | rfl <;> trivial
  | processTimeouts =>
      cases h
      exact ⟨hc, Cancelled.next _ u⟩

/-- The only threads that refer to the operation are senders that are about to send
it, with a wait to come, or wait. -/
def AwaitedOnly (u : ℕ) (s : State) : Prop :=
  ∀ t ∈ s.threads, t.operation = some u →
    (∃ iTimeout, iTimeout ≠ 0 ∧ t = .syncSending u iTimeout) ∨ ∃ iTimeout, t = .syncWaiting u iTimeout

/-- An operation without an answer holds the result of the pause once it is its turn. -/
theorem cancelled_completeSync {u : ℕ} {sh : Shared} {op : PendingOperation} {us : List ℕ}
    (hu : u ∈ us) (hop : sh.object u = some op) (hsync : op.bAsyncInvoke = false)
    (hanswer : op.pAnswerMessage = none) : Cancelled u (completeSync sh us) := by
  induction us generalizing sh op with
  | nil => cases hu
  | cons v us ih =>
      have hobject := sh.object_modify v u fun op => op.complete ROSE_TE_SHUTDOWN none
      rw [hop] at hobject
      by_cases hv : u = v
      · have hc : Cancelled u (sh.modify v fun op => op.complete ROSE_TE_SHUTDOWN none) :=
          ⟨_, hobject, by simp [hv, PendingOperation.complete, hsync, hanswer]⟩
        exact hc.completeSync us
      · refine ih ((List.mem_cons.mp hu).resolve_left hv) hobject ?_ ?_ <;> simpa [hv]

theorem reports_of_awaitedOnly {u : ℕ} {t : Thread}
    (h : t.operation = some u → (∃ iTimeout, iTimeout ≠ 0 ∧ t = .syncSending u iTimeout) ∨
      ∃ iTimeout, t = .syncWaiting u iTimeout) : t.Reports u := by
  cases t <;> simp_all [Thread.operation, Thread.Reports]

/-- A trace in which the pause has the last word on every operation it completes. -/
def PauseIsFinal (trace : List Label) : Prop :=
  ∀ t₁ t₂ p us u lRoseResult, trace = t₁ ++ .completedAll p us :: t₂ → u ∈ us →
    Label.returned u lRoseResult ∈ t₂ → lRoseResult = ROSE_TE_SHUTDOWN

/-- An operation that a pause completes without an answer, while its sender is sending
or waiting, reports the shutdown, as long as nobody answers it afterwards. -/
theorem returned_of_completedAll {s₁ s₂ s : State} {p u : ℕ} {us : List ℕ} {trace : List Label}
    (hpause : Step s₁ (.completedAll p us) s₂) (hu : u ∈ us)
    (hanswer : ∀ op ∈ s₁.shared.object u, op.pAnswerMessage = none) (hawaited : AwaitedOnly u s₁)
    (hrun : Transition.Run (Transition.restrict Step fun _ l => l.Leaves u) s₂ trace s) :
    ∀ lRoseResult, Label.returned u lRoseResult ∈ trace → lRoseResult = ROSE_TE_SHUTDOWN := by
  have hstart : Cancelled u s₂.shared ∧ ∀ t ∈ s₂.threads, t.Reports u := by
    cases hpause with
    | @act sh sh' threads t next l choice hact =>
        have hact : act sh choice t = some (sh', next, .completedAll p us) := hact
        obtain rfl : t = .completeAll p := label_isOf hact
        cases hact
        obtain ⟨-, op, hop, hsync⟩ := mem_pendingWith.mp hu
        refine ⟨cancelled_completeSync hu hop (by simpa using hsync) (hanswer op hop), ?_⟩
        intro t ht
        rcases Multiset.mem_add.mp ht with ht | ht
        · exact Cancelled.next _ u t (Multiset.mem_coe.mp ht)
        · exact reports_of_awaitedOnly (hawaited t (Multiset.mem_cons_of_mem ht))
  have hkept : (Cancelled u s.shared ∧ ∀ t ∈ s.threads, t.Reports u) ∧
      ∀ lRoseResult, Label.returned u lRoseResult ∈ trace → lRoseResult = ROSE_TE_SHUTDOWN := by
    refine hrun.invariant (P := fun trace s => (Cancelled u s.shared ∧ ∀ t ∈ s.threads,
      t.Reports u) ∧ ∀ r, Label.returned u r ∈ trace → r = ROSE_TE_SHUTDOWN) ?_ ?_
    · exact ⟨hstart, by simp⟩
    · rintro trace s l s' ⟨⟨hc, hthreads⟩, htrace⟩ ⟨hstep, hl⟩
      refine ⟨hstep.forall_threads (Q := fun _ t => t.Reports u) hc hthreads ?_ ?_, ?_⟩
      · intro t ht
        cases t <;> trivial
      · intro choice t sh' next hc ht hact
        obtain ⟨hc', hnext⟩ := act_cancelled hc ht hl hact
        exact ⟨hc', hnext, fun _ h => h⟩
      · intro r hr
        rcases List.mem_append.mp hr with hr | hr
        · exact htrace r hr
        · obtain rfl : Label.returned u r = l := List.mem_singleton.mp hr
          cases hstep with
          | act choice hact =>
              obtain rfl := label_isOf hact
              exact hthreads _ (Multiset.mem_cons_self _ _) rfl
  exact hkept.2

/-- A waiter that the pause completes wakes up and returns. -/
theorem returned_of_completedAll_wakes :
    {lRoseResult | Label.returned 0 lRoseResult ∈
        [.silent, .silent, .silent, .silent, .returned 0 ROSE_TE_SHUTDOWN]} ⊆
      {ROSE_TE_SHUTDOWN} := by
  let op : PendingOperation := ⟨1, none, 0, false, false, false, false, false⟩
  let sh : Shared := ⟨false, ⟨1, [op], [0]⟩, 0, false, false⟩
  let cancelled : Shared := ⟨false, ⟨1, [{ op with lRoseResult := 2, signaled := true }], [0]⟩, 0,
    false, false⟩
  let choice : Choice := ⟨none, false, [], 0⟩
  have hpause : Step ⟨sh, ↑[Thread.completeAll 7, .syncWaiting 0 1000]⟩ (.completedAll 7 [0])
      ⟨cancelled, ↑[Thread.pauseReturning 7, .syncWaiting 0 1000]⟩ :=
    @Threads.step_of_move _ _ _ _ system _ _ _ _ (.act 0 choice) _ (by decide)
  have hrest : Threads.play system [.act 1 choice, .act 0 choice, .act 0 choice, .act 0 choice,
      .act 0 choice] (cancelled, [Thread.pauseReturning 7, .syncWaiting 0 1000]) =
      some ([.silent, .silent, .silent, .silent, .returned 0 ROSE_TE_SHUTDOWN],
        ⟨false, ⟨1, [{ op with lRoseResult := 2 }], []⟩, 0, false, false⟩, [.pauseReturning 7]) := by
    decide
  refine fun lRoseResult hreturned => returned_of_completedAll hpause (by decide) (by decide) ?_
    ((Threads.run_of_play hrest).restrict_of_forall (by simp [Label.Leaves])) lRoseResult hreturned
  intro t ht hop
  rcases List.mem_cons.mp ht with rfl | ht
  · cases hop
  · exact .inr ⟨1000, List.mem_singleton.mp ht⟩

/-- The result arrives after the pause has returned and before the waiter has woken
up. -/
theorem not_pauseIsFinal :
    ¬ ∀ (trace : List Label) (s : State), Transition.Run Step .init trace s →
      PauseIsFinal trace := by
  intro h
  let choice : Choice := ⟨some 0, false, [], 0⟩
  have hplay : (Threads.play system [.call (.issuing .sync 1000), .act 0 choice, .act 0 choice,
      .act 0 choice, .act 0 choice, .call (.pause 7), .act 0 choice, .act 0 choice, .act 0 choice,
      .call (.response 1 ⟨0, 0⟩), .act 0 choice, .act 0 choice, .act 0 choice, .act 0 choice,
      .act 0 choice] (.init, [])).map Prod.fst =
      some ([.silent, .issued 1, .silent, .added 0 true, .sent 0 (some 0), .silent, .paused 7] ++
        .completedAll 7 [0] :: [.pauseReturned 7, .silent, .answered 0, .silent, .silent, .silent,
          .returned 0 ROSE_NOERROR]) := by
    decide
  obtain ⟨⟨trace, sh, threads⟩, hplay, htrace⟩ := Option.map_eq_some_iff.mp hplay
  have hfinal := h trace _ (Threads.run_of_play hplay)
  exact absurd (hfinal _ _ 7 [0] 0 ROSE_NOERROR htrace (by decide) (by decide)) (by decide)

end PendingInvokes

end Esnacc
