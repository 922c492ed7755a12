import Esnacc.Rose.PendingInvokes

/-!
What a step of the client side can do to the pending operations, and what follows
for every run in which no two pending invokes have one id.
-/

namespace Esnacc

namespace PendingInvokes

open PendingTable

/-- The operation whose sender a thread is. -/
def Thread.sender : Thread → Option ℕ
  | .settingUp _ u _ | .asyncSending u _ | .syncSending u _ | .syncWaiting u _ | .syncWoken u
  | .syncResult u | .syncAnswer u _ | .syncRemoving u _ => some u
  | _ => none

/-- The operation whose sender a thread is, if it is a synchronous one. -/
def Thread.syncSender : Thread → Option ℕ
  | .syncSending u _ | .syncWaiting u _ | .syncWoken u | .syncResult u | .syncAnswer u _
  | .syncRemoving u _ => some u
  | _ => none

/-- An operation keeps its id and what the setup has written. -/
def SameSetup (op op' : PendingOperation) : Prop :=
  op'.lInvokeID = op.lInvokeID ∧ op'.bAsyncInvoke = op.bAsyncInvoke ∧
    op'.bFireAndForgetAsync = op.bFireAndForgetAsync ∧ op'.pAsyncContext = op.pAsyncContext ∧
    op'.asyncDeadline = op.asyncDeadline

theorem SameSetup.refl (op : PendingOperation) : SameSetup op op := ⟨rfl, rfl, rfl, rfl, rfl⟩

theorem SameSetup.complete (op : PendingOperation) (r : RoseResult) (m : Option Message) :
    SameSetup op (op.complete r m) := ⟨rfl, rfl, rfl, rfl, rfl⟩

/-- The number of threads that are the sender of an operation. -/
def senders (u : ℕ) (threads : Multiset Thread) : ℕ :=
  threads.countP fun t => t.sender = some u

theorem senders_nil (u : ℕ) : senders u ↑([] : List Thread) = 0 := rfl

theorem senders_cons (u : ℕ) (t : Thread) (ts : List Thread) :
    senders u ↑(t :: ts) = senders u ↑ts + if t.sender = some u then 1 else 0 := by
  simp only [senders, Multiset.coe_countP, List.countP_cons, decide_eq_true_eq]

/-- A step that moves nothing in or out of the table. -/
structure Quiet (t : Thread) (sh sh' : Shared) (next : List Thread) : Prop where
  pending : sh'.table.pending = sh.table.pending
  length : sh'.table.objects.length = sh.table.objects.length
  counter : 0 ≤ sh.table.lInvokeCounter ∧ sh.table.lInvokeCounter ≤ 99997 →
    0 ≤ sh'.table.lInvokeCounter ∧ sh'.table.lInvokeCounter ≤ 99997
  object : ∀ u op, sh.object u = some op → ∃ op', sh'.object u = some op' ∧
    ((∃ stage iTimeout, t = .settingUp stage u iTimeout ∧ op' = stage.write iTimeout op) ∨
      (∀ stage iTimeout, t ≠ .settingUp stage u iTimeout) ∧ SameSetup op op')
  senders : ∀ u, senders u ↑next ≤ if t.sender = some u then 1 else 0
  syncSenders : ∀ t' ∈ next, ∀ u, t'.syncSender = some u → t.syncSender = some u
  operation : ∀ t' ∈ next, ∀ u, t'.operation = some u → t.operation = some u

/-- The table and the operations are as they were, and the threads that follow refer
to nothing that the one before did not. -/
theorem Quiet.of_table_eq {t : Thread} {sh sh' : Shared} {next : List Thread}
    (htable : sh'.table = sh.table) (ht : ∀ stage u iTimeout, t ≠ .settingUp stage u iTimeout)
    (hsenders : ∀ u, PendingInvokes.senders u ↑next ≤ if t.sender = some u then 1 else 0)
    (hsync : ∀ t' ∈ next, ∀ u, t'.syncSender = some u → t.syncSender = some u)
    (hoperation : ∀ t' ∈ next, ∀ u, t'.operation = some u → t.operation = some u) :
    Quiet t sh sh' next where
  pending := by rw [htable]
  length := by rw [htable]
  counter h := by rwa [htable]
  object u op hop := by
    refine ⟨op, ?_, .inr ⟨fun stage => ht stage u, .refl op⟩⟩
    rw [Shared.object, htable]
    exact hop
  senders := hsenders
  syncSenders := hsync
  operation := hoperation

/-- One operation is changed, but not what its setup has written. -/
theorem Quiet.of_modify {t : Thread} {sh : Shared} {v : ℕ}
    {f : PendingOperation → PendingOperation} {next : List Thread}
    (hf : ∀ op, SameSetup op (f op)) (ht : ∀ stage u iTimeout, t ≠ .settingUp stage u iTimeout)
    (hsenders : ∀ u, PendingInvokes.senders u ↑next ≤ if t.sender = some u then 1 else 0)
    (hsync : ∀ t' ∈ next, ∀ u, t'.syncSender = some u → t.syncSender = some u)
    (hoperation : ∀ t' ∈ next, ∀ u, t'.operation = some u → t.operation = some u) :
    Quiet t sh (sh.modify v f) next where
  pending := rfl
  length := by simp [Shared.modify, Shared.setTable, Table.modify]
  counter h := h
  object u op hop := by
    refine ⟨if u = v then f op else op, ?_, .inr ⟨fun stage => ht stage u, ?_⟩⟩
    · rw [Shared.object_modify, hop]
      rfl
    · split
      · exact hf op
      · exact .refl op
  senders := hsenders
  syncSenders := hsync
  operation := hoperation

/-- Threads that refer to nothing come after any thread. -/
theorem quiet_threads {next : List Thread} (h : ∀ t ∈ next, t.operation = none) (t : Thread) :
    (∀ u, senders u ↑next ≤ if t.sender = some u then 1 else 0) ∧
      (∀ t' ∈ next, ∀ u, t'.syncSender = some u → t.syncSender = some u) ∧
      ∀ t' ∈ next, ∀ u, t'.operation = some u → t.operation = some u := by
  have hnone : ∀ t' ∈ next, t'.sender = none ∧ t'.syncSender = none := by
    intro t' ht'
    have := h t' ht'
    cases t' <;> simp_all [Thread.operation, Thread.sender, Thread.syncSender]
  refine ⟨fun u => ?_, fun t' ht' u hu => ?_, fun t' ht' u hu => ?_⟩
  · have hzero : senders u ↑next = 0 := by
      rw [senders, Multiset.coe_countP, List.countP_eq_zero]
      intro t' ht'
      simp [(hnone t' ht').1]
    omega
  · rw [(hnone t' ht').2] at hu
    cases hu
  · rw [h t' ht'] at hu
    cases hu

theorem operation_next {caller : Caller} : ∀ t ∈ caller.next, t.operation = none := by
  intro t ht
  rcases mem_next ht with ⟨p, rfl⟩ | rfl | ⟨id, r, caller', rfl⟩ <;> rfl

/-- One thread comes after another and refers to the same operation. -/
theorem quiet_thread {t t' : Thread} (hsender : t'.sender = t.sender)
    (hsync : t'.syncSender = t.syncSender) (hoperation : t'.operation = t.operation) :
    (∀ u, senders u ↑[t'] ≤ if t.sender = some u then 1 else 0) ∧
      (∀ t₁ ∈ [t'], ∀ u, t₁.syncSender = some u → t.syncSender = some u) ∧
      ∀ t₁ ∈ [t'], ∀ u, t₁.operation = some u → t.operation = some u := by
  refine ⟨fun u => ?_, ?_, ?_⟩
  · rw [senders_cons, senders_nil, hsender, zero_add]
  · simp [hsync]
  · simp [hoperation]

theorem setUp_quiet (sh : Shared) (stage : Setup) (v : ℕ) (iTimeout : ℤ) :
    Quiet (.settingUp stage v iTimeout) sh (setUp sh stage v iTimeout).1
      (setUp sh stage v iTimeout).2.1 := by
  have hnext : (∀ u, senders u ↑(setUp sh stage v iTimeout).2.1 ≤ if v = u then 1 else 0) ∧
      (∀ t ∈ (setUp sh stage v iTimeout).2.1, t.syncSender = none) ∧
      ∀ t ∈ (setUp sh stage v iTimeout).2.1, ∀ u, t.operation = some u → v = u := by
    refine ⟨fun u => ?_, fun t ht => ?_, fun t ht u hu => ?_⟩
    · cases stage <;> simp only [setUp]
      case setContext =>
        split <;> simp only [senders_cons, senders_nil, Thread.sender, Option.some.injEq,
          zero_add, le_refl]
      case ensureWatchdog =>
        split <;> simp only [senders_cons, senders_nil, Thread.sender, Option.some.injEq,
          zero_add, le_refl, reduceCtorEq, if_false, add_zero]
      all_goals simp only [senders_cons, senders_nil, Thread.sender, Option.some.injEq,
        zero_add, le_refl]
    · rcases setUp_next ht with rfl | ⟨stage', rfl⟩ | rfl <;> rfl
    · rcases setUp_next ht with rfl | ⟨stage', rfl⟩ | rfl <;>
        simp_all [Thread.operation]
  refine ⟨?_, ?_, ?_, ?_, ?_, ?_, ?_⟩
  · cases stage <;> simp only [setUp] <;> first | rfl | split <;> rfl
  · cases stage <;> simp only [setUp] <;>
      first | rfl | simp [Shared.modify, Shared.setTable, Table.modify] | split <;> rfl
  · intro hc
    cases stage <;> simp only [setUp] <;> first | exact hc | split <;> exact hc
  · intro u op hop
    refine ⟨if u = v then stage.write iTimeout op else op, ?_, ?_⟩
    · rw [setUp_object, hop]
      rfl
    · by_cases hu : u = v
      · subst hu
        exact .inl ⟨stage, iTimeout, rfl, by rw [if_pos rfl]⟩
      · rw [if_neg hu]
        refine .inr ⟨fun stage' iTimeout' h => hu ?_, .refl op⟩
        cases h
        rfl
  · simpa [Thread.sender] using hnext.1
  · intro t ht u hu
    rw [hnext.2.1 t ht] at hu
    cases hu
  · intro t ht u hu
    rw [hnext.2.2 t ht u hu]
    rfl

theorem completeSync_quiet (sh : Shared) (us : List ℕ) :
    (completeSync sh us).table.pending = sh.table.pending ∧
      (completeSync sh us).table.objects.length = sh.table.objects.length ∧
      (completeSync sh us).table.lInvokeCounter = sh.table.lInvokeCounter ∧
      ∀ u op, sh.object u = some op →
        ∃ op', (completeSync sh us).object u = some op' ∧ SameSetup op op' := by
  unfold completeSync
  induction us generalizing sh with
  | nil => exact ⟨rfl, rfl, rfl, fun u op hop => ⟨op, hop, .refl op⟩⟩
  | cons v us ih =>
      obtain ⟨hpending, hlength, hcounter, hobject⟩ :=
        ih (sh.modify v fun op => op.complete ROSE_TE_SHUTDOWN none)
      refine ⟨hpending, hlength.trans ?_, hcounter, fun u op hop => ?_⟩
      · simp [Shared.modify, Shared.setTable, Table.modify]
      · have h := sh.object_modify v u fun op => op.complete ROSE_TE_SHUTDOWN none
        rw [hop] at h
        obtain ⟨op', hop', hsame⟩ := hobject u _ h
        refine ⟨op', hop', ?_⟩
        by_cases hu : u = v
        · simpa [hu, SameSetup, PendingOperation.complete] using hsame
        · simpa [hu] using hsame

/-- Completing changes nothing but the table. -/
theorem completeSync_eq_setTable (sh : Shared) (us : List ℕ) :
    ∃ t, completeSync sh us = sh.setTable t := by
  unfold completeSync
  induction us generalizing sh with
  | nil => exact ⟨sh.table, rfl⟩
  | cons v us ih =>
      obtain ⟨t, ht⟩ := ih (sh.modify v fun op => op.complete ROSE_TE_SHUTDOWN none)
      exact ⟨t, ht⟩

/-- The end of `SendInvokeAsync` changes nothing itself. -/
theorem asyncSending_spec {sh sh' : Shared} {choice : Choice} {u : ℕ} {iTimeout : ℤ}
    {next : List Thread} {l : Label}
    (h : act sh choice (.asyncSending u iTimeout) = some (sh', next, l)) :
    sh' = sh ∧ l = .sent u choice.send ∧
      ∀ t ∈ next, ∃ id lRoseResult, t = .finish id lRoseResult none .sender := by
  simp only [act, Option.map_eq_some_iff] at h
  obtain ⟨op, -, h⟩ := h
  cases hsend : choice.send with
  | none =>
      rw [hsend] at h
      cases h
      exact ⟨rfl, rfl, by simp⟩
  | some r =>
      rw [hsend] at h
      cases h
      refine ⟨rfl, rfl, fun t ht => ?_⟩
      split at ht
      · exact ⟨_, _, List.mem_singleton.mp ht⟩
      · cases ht

/-- After the send a synchronous sender waits, or it has its result. -/
theorem syncSending_spec {sh sh' : Shared} {choice : Choice} {u : ℕ} {iTimeout : ℤ}
    {next : List Thread} {l : Label}
    (h : act sh choice (.syncSending u iTimeout) = some (sh', next, l)) :
    (sh' = sh ∨ ∃ r, sh' = sh.modify u fun op => { op with lRoseResult := r }) ∧
      l = .sent u choice.send ∧
      (next = [] ∨ next = [.syncWaiting u iTimeout] ∨ ∃ r, next = [.syncAnswer u r]) := by
  simp only [act] at h
  cases hsend : choice.send with
  | none =>
      rw [hsend] at h
      cases h
      exact ⟨.inl rfl, rfl, .inl rfl⟩
  | some r =>
      rw [hsend] at h
      simp only [sendSync] at h
      split at h <;> cases h
      · exact ⟨.inl rfl, rfl, .inr (.inl rfl)⟩
      · exact ⟨.inr ⟨r, rfl⟩, rfl, .inr (.inr ⟨r, rfl⟩)⟩

/-- What a step can do to the table: nothing, a new entry, the removal by a sender that
returns, or a claim. -/
theorem act_cases {sh sh' : Shared} {choice : Choice} {t : Thread} {next : List Thread}
    {l : Label} (h : act sh choice t = some (sh', next, l)) :
    Quiet t sh sh' next ∨
    (∃ kind id iTimeout, t = .adding kind id iTimeout ∧
      l = .added (sh.table.addPendingOperation id).1 (sh.table.find id).isNone ∧
      sh' = sh.setTable (sh.table.addPendingOperation id).2 ∧
      next = [if kind = .sync then .syncSending (sh.table.addPendingOperation id).1 iTimeout
        else .settingUp .markAsync (sh.table.addPendingOperation id).1 iTimeout]) ∨
    (∃ u lRoseResult op, t = .syncRemoving u lRoseResult ∧ sh.object u = some op ∧
      l = .returned u lRoseResult ∧ next = [] ∧
      sh' = sh.setTable (sh.table.removePendingOperation op.lInvokeID)) ∨
    ∃ id lRoseResult message caller u, t = .finish id lRoseResult message caller ∧
      claim sh id = some (u, sh') ∧ l = .finished u ∧
      next = [.claimed u lRoseResult message caller] := by
  have hsilent {sh₁ : Shared} {t₁ : Thread} {next₁ : List Thread}
      (ht : ∀ stage u iTimeout, t₁ ≠ .settingUp stage u iTimeout)
      (htable : sh₁.table = sh.table) (hnext : ∀ t ∈ next₁, t.operation = none) :
      Quiet t₁ sh sh₁ next₁ := by
    obtain ⟨h1, h2, h3⟩ := quiet_threads hnext t₁
    exact .of_table_eq htable ht h1 h2 h3
  have hsame {t₁ t₂ : Thread} (ht : ∀ stage u iTimeout, t₁ ≠ .settingUp stage u iTimeout)
      (hsender : t₂.sender = t₁.sender) (hsync : t₂.syncSender = t₁.syncSender)
      (hoperation : t₂.operation = t₁.operation) : Quiet t₁ sh sh [t₂] := by
    obtain ⟨h1, h2, h3⟩ := quiet_thread hsender hsync hoperation
    exact .of_table_eq rfl ht h1 h2 h3
  have hmodify {t₁ t₂ : Thread} {v : ℕ} {f : PendingOperation → PendingOperation}
      (hf : ∀ op, SameSetup op (f op)) (ht : ∀ stage u iTimeout, t₁ ≠ .settingUp stage u iTimeout)
      (hsender : t₂.sender = t₁.sender) (hsync : t₂.syncSender = t₁.syncSender)
      (hoperation : t₂.operation = t₁.operation) : Quiet t₁ sh (sh.modify v f) [t₂] := by
    obtain ⟨h1, h2, h3⟩ := quiet_thread hsender hsync hoperation
    exact .of_modify hf ht h1 h2 h3
  cases t with
  | adding kind id iTimeout =>
      cases h
      exact .inr (.inl ⟨kind, id, iTimeout, rfl, rfl, rfl, rfl⟩)
  | syncRemoving u r =>
      simp only [act, Option.map_eq_some_iff] at h
      obtain ⟨op, hop, h⟩ := h
      cases h
      exact .inr (.inr (.inl ⟨u, r, op, rfl, hop, rfl, rfl, rfl⟩))
  | finish id r message caller =>
      simp only [act] at h
      split at h
      · next claimed hclaim =>
          cases h
          exact .inr (.inr (.inr ⟨id, r, message, caller, claimed.1, rfl, hclaim, rfl, rfl⟩))
      · cases h
        exact .inl (hsilent (by simp) rfl operation_next)
  | issuing kind iTimeout =>
      cases h
      obtain ⟨h1, h2, h3⟩ := @quiet_threads [.gate kind sh.table.getNextInvokeID.1 iTimeout]
        (by simp [Thread.operation]) (.issuing kind iTimeout)
      refine .inl ⟨rfl, rfl, fun hc => ?_, fun u op hop => ⟨op, hop, .inr ⟨by simp, .refl op⟩⟩,
        h1, h2, h3⟩
      simp only [Shared.setTable, Table.getNextInvokeID]
      split <;> omega
  | settingUp stage v iTimeout =>
      obtain rfl : _ = sh' := congrArg Prod.fst (Option.some.inj h)
      obtain rfl : _ = next := congrArg (·.2.1) (Option.some.inj h)
      exact .inl (setUp_quiet sh stage v iTimeout)
  | gate kind id iTimeout =>
      simp only [act] at h
      split at h <;> cases h <;> exact .inl (hsilent (by simp) rfl (by simp [Thread.operation]))
  | asyncSending v iTimeout =>
      obtain ⟨rfl, -, hnext⟩ := asyncSending_spec h
      refine .inl (hsilent (by simp) rfl fun t ht => ?_)
      obtain ⟨id, r, rfl⟩ := hnext t ht
      rfl
  | syncSending v iTimeout =>
      obtain ⟨rfl | ⟨r, rfl⟩, -, rfl | rfl | ⟨r', rfl⟩⟩ := syncSending_spec h
      · exact .inl (hsilent (by simp) rfl (by simp))
      · exact .inl (hsame (by simp) rfl rfl rfl)
      · exact .inl (hsame (by simp) rfl rfl rfl)
      · obtain ⟨h1, h2, h3⟩ := @quiet_threads [] (by simp) (.syncSending v iTimeout)
        exact .inl (.of_modify (fun op => ⟨rfl, rfl, rfl, rfl, rfl⟩) (by simp) h1 h2 h3)
      · exact .inl (hmodify (fun op => ⟨rfl, rfl, rfl, rfl, rfl⟩) (by simp) rfl rfl rfl)
      · exact .inl (hmodify (fun op => ⟨rfl, rfl, rfl, rfl, rfl⟩) (by simp) rfl rfl rfl)
  | syncWaiting v iTimeout =>
      simp only [act, Option.bind_eq_some_iff, wait] at h
      obtain ⟨op, -, h⟩ := h
      split at h
      · cases h
        exact .inl (hmodify (fun op => ⟨rfl, rfl, rfl, rfl, rfl⟩) (by simp) rfl rfl rfl)
      · split at h
        · cases h
          exact .inl (hmodify (fun op => ⟨rfl, rfl, rfl, rfl, rfl⟩) (by simp) rfl rfl rfl)
        · cases h
  | syncWoken v =>
      simp only [act, Option.map_eq_some_iff] at h
      obtain ⟨op, -, h⟩ := h
      cases h
      split <;> exact .inl (hsame (by simp) rfl rfl rfl)
  | syncResult | syncAnswer =>
      simp only [act, Option.map_eq_some_iff] at h
      obtain ⟨op, -, h⟩ := h
      cases h
      exact .inl (hsame (by simp) rfl rfl rfl)
  | response id message =>
      simp only [act, Option.some.injEq, completePendingOperation] at h
      split at h
      · cases h
        exact .inl (hsilent (by simp) rfl (by simp))
      · split at h <;> cases h
        · exact .inl (hsilent (by simp) rfl (by simp [Thread.operation]))
        · obtain ⟨h1, h2, h3⟩ := @quiet_threads [] (by simp) (.response id message)
          exact .inl (.of_modify (fun op => .complete op _ _) (by simp) h1 h2 h3)
  | claimed v r message caller =>
      simp only [act, Option.map_eq_some_iff] at h
      obtain ⟨op, -, h⟩ := h
      cases h
      exact .inl (hsilent (by simp) rfl (by simp [Thread.operation]))
  | notifying | notified | pause | pauseReturning | resume | watchdogScan | watchdogExit =>
      -- neither the table nor an operation is touched
      cases h
      exact .inl (hsilent (by simp) rfl (by simp [Thread.operation]))
  | callingBack callback caller =>
      cases callback <;> cases h <;> exact .inl (hsilent (by simp) rfl operation_next)
  | completeAll p =>
      cases h
      obtain ⟨h1, h2, h3⟩ := quiet_threads
        (@operation_next (.pause p (idsOf sh (pendingWith sh PendingOperation.bAsyncInvoke))))
        (.completeAll p)
      obtain ⟨hpending, hlength, hcounter, hobject⟩ :=
        completeSync_quiet sh (pendingWith sh fun op => !op.bAsyncInvoke)
      refine .inl ⟨hpending, hlength, fun hc => by rwa [hcounter], fun u op hop => ?_, h1, h2, h3⟩
      obtain ⟨op', hop', hsetup⟩ := hobject u op hop
      exact ⟨op', hop', .inr ⟨by simp, hsetup⟩⟩
  | watchdogWait armed =>
      obtain ⟨rfl, hnext⟩ := watch_spec h
      refine .inl (hsilent (by simp) rfl fun t ht => ?_)
      rcases hnext t ht with rfl | rfl | rfl <;> rfl
  | processTimeouts =>
      cases h
      exact .inl (hsilent (by simp) rfl operation_next)

/-- What a step writes to an operation. -/
theorem act_object {sh sh' : Shared} {choice : Choice} {t : Thread} {next : List Thread}
    {l : Label} {u : ℕ} {op : PendingOperation} (h : act sh choice t = some (sh', next, l))
    (hop : sh.object u = some op) : ∃ op', sh'.object u = some op' ∧
      ((∃ stage iTimeout, t = .settingUp stage u iTimeout ∧ op' = stage.write iTimeout op) ∨
        (∀ stage iTimeout, t ≠ .settingUp stage u iTimeout) ∧ SameSetup op op') := by
  rcases act_cases h with hq | ⟨kind, id, iTimeout, rfl, -, rfl, -⟩ | ⟨v, r, op', rfl, -, -, -, rfl⟩ |
    ⟨id, r, m, caller, v, rfl, hclaim, -, -⟩
  · exact hq.object u op hop
  · exact ⟨op, sh.object_addPendingOperation id hop, .inr ⟨by simp, .refl op⟩⟩
  · exact ⟨op, hop, .inr ⟨by simp, .refl op⟩⟩
  · obtain ⟨op', -, -, -, rfl⟩ := claim_eq_some hclaim
    exact ⟨op, hop, .inr ⟨by simp, .refl op⟩⟩

/-- What a caller goes on with is neither an operation that is set up nor one that is claimed. -/
theorem settingUp_not_mem_next {stage : Setup} {u : ℕ} {iTimeout : ℤ} {caller : Caller} :
    .settingUp stage u iTimeout ∉ caller.next := by
  intro h
  rcases mem_next h with ⟨p, h⟩ | h | ⟨id, r, caller', h⟩ <;> cases h

theorem claimed_not_mem_next {u : ℕ} {r : RoseResult} {m : Option Message}
    {caller caller' : Caller} : .claimed u r m caller ∉ caller'.next := by
  intro h
  rcases mem_next h with ⟨p, h⟩ | h | ⟨id, r, caller', h⟩ <;> cases h

/-- A step of the setup leads to the next stage. -/
theorem act_settingUp {sh sh' : Shared} {choice : Choice} {t : Thread} {next : List Thread}
    {l : Label} {stage : Setup} {u : ℕ} {iTimeout : ℤ} (h : act sh choice t = some (sh', next, l))
    (ht : .settingUp stage u iTimeout ∈ next) :
    (stage = .markAsync ∧ ∃ kind id, t = .adding kind id iTimeout) ∨
      ∃ stage', t = .settingUp stage' u iTimeout ∧
        .settingUp stage u iTimeout ∈ (setUp sh stage' u iTimeout).2.1 := by
  cases t with
  | adding kind id iTimeout' =>
      cases h
      have heq := List.mem_singleton.mp ht
      split at heq <;> cases heq
      exact .inl ⟨rfl, kind, id, rfl⟩
  | settingUp stage' v iTimeout' =>
      obtain rfl : _ = next := congrArg (·.2.1) (Option.some.inj h)
      rcases setUp_next ht with h | ⟨stage'', heq⟩ | h
      · cases h
      · cases heq
        exact .inr ⟨stage', rfl, ht⟩
      · cases h
  | finish id r message caller =>
      simp only [act] at h
      split at h <;> cases h
      · cases List.mem_singleton.mp ht
      · exact absurd ht settingUp_not_mem_next
  | callingBack callback caller =>
      obtain rfl : next = caller.next := by cases callback <;> cases h <;> rfl
      exact absurd ht settingUp_not_mem_next
  | completeAll p =>
      cases h
      exact absurd ht settingUp_not_mem_next
  | processTimeouts =>
      cases h
      exact absurd ht settingUp_not_mem_next
  | asyncSending v iTimeout =>
      obtain ⟨id, r, h⟩ := (asyncSending_spec h).2.2 _ ht
      cases h
  | syncSending v iTimeout =>
      obtain ⟨-, -, rfl | rfl | ⟨r, rfl⟩⟩ := syncSending_spec h
      · cases ht
      · cases List.mem_singleton.mp ht
      · cases List.mem_singleton.mp ht
  | watchdogWait armed => rcases (watch_spec h).2 _ ht with h | h | h <;> cases h
  | _ =>
      grind [act, wait, completePendingOperation, Option.map_eq_some_iff,
        Option.bind_eq_some_iff]

/-- Only `FinishAsyncInvoke` claims an operation. -/
theorem act_claimed {sh sh' : Shared} {choice : Choice} {t : Thread} {next : List Thread}
    {l : Label} {u : ℕ} {r : RoseResult} {m : Option Message} {caller : Caller}
    (h : act sh choice t = some (sh', next, l)) (ht : .claimed u r m caller ∈ next) :
    l = .finished u := by
  cases t with
  | finish id r message caller =>
      simp only [act] at h
      split at h <;> cases h
      · cases List.mem_singleton.mp ht
        rfl
      · exact absurd ht claimed_not_mem_next
  | callingBack callback caller =>
      obtain rfl : next = caller.next := by cases callback <;> cases h <;> rfl
      exact absurd ht claimed_not_mem_next
  | completeAll p =>
      cases h
      exact absurd ht claimed_not_mem_next
  | processTimeouts =>
      cases h
      exact absurd ht claimed_not_mem_next
  | settingUp stage v iTimeout =>
      obtain rfl : _ = next := congrArg (·.2.1) (Option.some.inj h)
      rcases setUp_next ht with h | ⟨stage', h⟩ | h <;> cases h
  | asyncSending v iTimeout =>
      obtain ⟨id, r, h⟩ := (asyncSending_spec h).2.2 _ ht
      cases h
  | syncSending v iTimeout =>
      obtain ⟨-, -, rfl | rfl | ⟨r, rfl⟩⟩ := syncSending_spec h
      · cases ht
      · cases List.mem_singleton.mp ht
      · cases List.mem_singleton.mp ht
  | watchdogWait armed => rcases (watch_spec h).2 _ ht with h | h | h <;> cases h
  | _ =>
      grind [act, wait, completePendingOperation, Option.map_eq_some_iff,
        Option.bind_eq_some_iff]

/-! ### Runs without a collision of ids -/

/-- An invoke enters the table under an id that nothing in it has. -/
def Label.isFresh : Label → Bool
  | .added _ isNew => isNew
  | _ => true

/-- Every operation has one sender at most, and that of a synchronous one is in the
table. -/
structure Base (s : State) : Prop where
  good : s.shared.table.Good
  exist : ∀ t ∈ s.threads, ∀ u, t.operation = some u → u < s.shared.table.objects.length
  single : ∀ u, senders u s.threads ≤ 1
  sync : ∀ t ∈ s.threads, ∀ u, t.syncSender = some u →
    u ∈ s.shared.table.pending ∧ ∃ op, s.shared.object u = some op ∧ op.bAsyncInvoke = false

theorem base_init : Base .init :=
  ⟨Table.good_init, by simp [State.init], by simp [State.init, senders], by simp [State.init]⟩

theorem sender_of_syncSender {t : Thread} {u : ℕ} (h : t.syncSender = some u) :
    t.sender = some u := by
  cases t <;> simp_all [Thread.syncSender, Thread.sender]

theorem operation_of_sender {t : Thread} {u : ℕ} (h : t.sender = some u) :
    t.operation = some u := by
  cases t <;> simp_all [Thread.sender, Thread.operation]

theorem operation_of_isCall {t : Thread} (h : t.isCall) : t.operation = none := by
  cases t <;> simp_all [Thread.isCall, Thread.operation]

/-- Two threads are not the sender of one operation. -/
theorem Base.sender_ne {sh : Shared} {t t' : Thread} {threads : Multiset Thread} {u : ℕ}
    (h : Base ⟨sh, t ::ₘ threads⟩) (ht' : t' ∈ threads) (hu : t'.sender = some u) :
    t.sender ≠ some u := by
  intro htu
  have hone := h.single u
  simp only [senders, Multiset.countP_cons, htu, if_true] at hone
  have hpos : 0 < threads.countP fun t => t.sender = some u :=
    Multiset.countP_pos.mpr ⟨t', ht', hu⟩
  omega

theorem Quiet.idOf {t : Thread} {sh sh' : Shared} {next : List Thread} (h : Quiet t sh sh' next)
    {u : ℕ} (hu : u < sh.table.objects.length) : sh'.table.idOf u = sh.table.idOf u := by
  obtain ⟨op, hop⟩ : ∃ op, sh.object u = some op := ⟨_, List.getElem?_eq_getElem hu⟩
  obtain ⟨op', hop', hwrite | ⟨-, hsame⟩⟩ := h.object u op hop
  · obtain ⟨stage, iTimeout, -, rfl⟩ := hwrite
    rw [Shared.object] at hop hop'
    rw [Table.idOf, Table.idOf, hop, hop']
    cases stage <;> rfl
  · rw [Shared.object] at hop hop'
    rw [Table.idOf, Table.idOf, hop, hop']
    exact congrArg some hsame.1

theorem Quiet.good {t : Thread} {sh sh' : Shared} {next : List Thread} (h : Quiet t sh sh' next)
    (hgood : sh.table.Good) : sh'.table.Good where
  counter := h.counter hgood.counter
  exist u hu := by
    rw [h.pending] at hu
    rw [h.length]
    exact hgood.exist u hu
  unique u hu v hv huv := by
    rw [h.pending] at hu hv
    rw [h.idOf (hgood.exist u hu), h.idOf (hgood.exist v hv)] at huv
    exact hgood.unique u hu v hv huv

theorem Base.quiet {sh sh' : Shared} {t : Thread} {threads : Multiset Thread}
    {next : List Thread} (h : Base ⟨sh, t ::ₘ threads⟩) (hq : Quiet t sh sh' next) :
    Base ⟨sh', ↑next + threads⟩ := by
  have hsync {t' : Thread} {u : ℕ} (hne : ∀ stage iTimeout, t ≠ .settingUp stage u iTimeout)
      (hu : u ∈ sh.table.pending ∧ ∃ op, sh.object u = some op ∧ op.bAsyncInvoke = false) :
      u ∈ sh'.table.pending ∧ ∃ op, sh'.object u = some op ∧ op.bAsyncInvoke = false := by
    obtain ⟨hpending, op, hop, hfalse⟩ := hu
    obtain ⟨op', hop', ⟨stage, iTimeout, ht, -⟩ | ⟨-, hsame⟩⟩ := hq.object u op hop
    · exact absurd ht (hne stage iTimeout)
    · exact ⟨by rwa [hq.pending], op', hop', hsame.2.1.trans hfalse⟩
  refine ⟨hq.good h.good, fun t' ht' u hu => ?_, fun u => ?_, fun t' ht' u hu => ?_⟩
  · rw [hq.length]
    rcases Multiset.mem_add.mp ht' with ht' | ht'
    · exact h.exist t (Multiset.mem_cons_self t _) u
        (hq.operation t' (Multiset.mem_coe.mp ht') u hu)
    · exact h.exist t' (Multiset.mem_cons_of_mem ht') u hu
  · have hone := h.single u
    have hnext := hq.senders u
    simp only [senders, Multiset.countP_add, Multiset.countP_cons] at hone hnext ⊢
    omega
  · rcases Multiset.mem_add.mp ht' with ht' | ht'
    · have htu := hq.syncSenders t' (Multiset.mem_coe.mp ht') u hu
      refine @hsync t' u ?_ (h.sync t (Multiset.mem_cons_self t _) u htu)
      rintro stage iTimeout rfl
      cases htu
    · refine @hsync t' u ?_ (h.sync t' (Multiset.mem_cons_of_mem ht') u hu)
      rintro stage iTimeout rfl
      exact h.sender_ne ht' (sender_of_syncSender hu) rfl

theorem Base.add {sh : Shared} {kind : Kind} {id iTimeout : ℤ} {threads : Multiset Thread}
    (h : Base ⟨sh, .adding kind id iTimeout ::ₘ threads⟩) (hnone : sh.table.find id = none)
    {t : Thread}
    (ht : t.operation = some (sh.table.addPendingOperation id).1) :
    Base ⟨sh.setTable (sh.table.addPendingOperation id).2, ↑[t] + threads⟩ := by
  have hgood := h.good.add hnone
  rw [Table.addPendingOperation_of_none hnone] at hgood ht ⊢
  have hold : ∀ t' ∈ threads, ∀ u, t'.operation = some u → u < sh.table.objects.length :=
    fun t' ht' => h.exist t' (Multiset.mem_cons_of_mem ht')
  refine ⟨hgood, fun t' ht' u hu => ?_, fun u => ?_, fun t' ht' u hu => ?_⟩
  · rcases Multiset.mem_add.mp ht' with ht' | ht'
    · rw [List.mem_singleton.mp (Multiset.mem_coe.mp ht'), ht] at hu
      obtain rfl := Option.some.inj hu
      simp [Shared.setTable]
    · simpa [Shared.setTable] using (hold t' ht' u hu).trans (Nat.lt_succ_self _)
  · have hone : senders u threads ≤ 1 := by
      refine le_trans (le_of_eq ?_) (h.single u)
      rw [senders, senders, Multiset.countP_cons_of_neg _ (by simp [Thread.sender])]
    have hsum : senders u (↑[t] + threads) =
        (if t.sender = some u then 1 else 0) + senders u threads := by
      have hadd : senders u (↑[t] + threads) = senders u ↑[t] + senders u threads :=
        Multiset.countP_add _ _ _
      rw [hadd, senders_cons, senders_nil, zero_add]
    rw [hsum]
    by_cases htu : t.sender = some u
    · obtain rfl : sh.table.objects.length = u :=
        Option.some.inj (ht.symm.trans (operation_of_sender htu))
      have hzero : senders sh.table.objects.length threads = 0 := by
        rw [senders, Multiset.countP_eq_zero]
        intro t' ht' hsender
        exact (hold t' ht' _ (operation_of_sender hsender)).false
      rw [hzero, if_pos htu]
    · rwa [if_neg htu, zero_add]
  · rcases Multiset.mem_add.mp ht' with ht' | ht'
    · rw [List.mem_singleton.mp (Multiset.mem_coe.mp ht')] at hu
      obtain rfl : sh.table.objects.length = u :=
        Option.some.inj (ht.symm.trans (operation_of_sender (sender_of_syncSender hu)))
      refine ⟨List.mem_append_right _ (List.mem_singleton_self _), .create id, ?_, rfl⟩
      simp [Shared.object, Shared.setTable]
    · obtain ⟨hu, op, hop, hfalse⟩ := h.sync t' (Multiset.mem_cons_of_mem ht') u hu
      refine ⟨List.mem_append_left _ hu, op, ?_, hfalse⟩
      have h := sh.object_addPendingOperation id hop
      rwa [Table.addPendingOperation_of_none hnone] at h

/-- An entry is removed that belongs to no other synchronous sender. -/
theorem Base.remove {sh sh' : Shared} {t : Thread} {id : ℤ} {threads : Multiset Thread}
    {next : List Thread} (h : Base ⟨sh, t ::ₘ threads⟩)
    (htable : sh'.table = sh.table.removePendingOperation id)
    (hnext : ∀ t' ∈ next, t'.sender = none)
    (hexist : ∀ t' ∈ next, ∀ u, t'.operation = some u → u < sh.table.objects.length)
    (hother : ∀ t' ∈ threads, ∀ u, t'.syncSender = some u → sh.table.idOf u ≠ some id) :
    Base ⟨sh', ↑next + threads⟩ := by
  refine ⟨by rw [htable]; exact h.good.remove id, fun t' ht' u hu => ?_, fun u => ?_,
    fun t' ht' u hu => ?_⟩
  · rw [htable]
    rcases Multiset.mem_add.mp ht' with ht' | ht'
    · exact hexist t' (Multiset.mem_coe.mp ht') u hu
    · exact h.exist t' (Multiset.mem_cons_of_mem ht') u hu
  · have hone := h.single u
    have hzero : senders u ↑next = 0 := by
      rw [senders, Multiset.countP_eq_zero]
      intro t' ht' hsender
      rw [hnext t' (Multiset.mem_coe.mp ht')] at hsender
      cases hsender
    simp only [senders, Multiset.countP_add, Multiset.countP_cons] at hone hzero ⊢
    omega
  · rcases Multiset.mem_add.mp ht' with ht' | ht'
    · have := (hnext t' (Multiset.mem_coe.mp ht')).symm.trans (sender_of_syncSender hu)
      cases this
    · obtain ⟨hpending, op, hop, hfalse⟩ := h.sync t' (Multiset.mem_cons_of_mem ht') u hu
      rw [Shared.object, htable]
      exact ⟨Table.mem_removePendingOperation.mpr ⟨hpending, hother t' ht' u hu⟩, op, hop, hfalse⟩

theorem Base.step {s s' : State} {l : Label} (h : Base s) (hstep : Step s l s')
    (hfresh : l.isFresh = true) : Base s' := by
  cases hstep with
  | @call sh threads t hcall howner =>
      have hnone := operation_of_isCall hcall
      refine ⟨h.good, fun t' ht' u hu => ?_, fun u => ?_, fun t' ht' u hu => ?_⟩
      · rcases Multiset.mem_cons.mp ht' with rfl | ht'
        · cases hnone.symm.trans hu
        · exact h.exist t' ht' u hu
      · have hsender : t.sender ≠ some u :=
          fun hu => nomatch hnone.symm.trans (operation_of_sender hu)
        simpa [senders, Multiset.countP_cons, hsender] using h.single u
      · rcases Multiset.mem_cons.mp ht' with rfl | ht'
        · cases hnone.symm.trans (operation_of_sender (sender_of_syncSender hu))
        · exact h.sync t' ht' u hu
  | @act sh sh' threads t next l choice hact =>
      rcases act_cases hact with hq | ⟨kind, id, iTimeout, rfl, rfl, rfl, rfl⟩ |
        ⟨u, r, op, rfl, hop, rfl, rfl, rfl⟩ | ⟨id, r, m, caller, u, rfl, hclaim, rfl, rfl⟩
      · exact h.quiet hq
      · refine h.add (Option.isNone_iff_eq_none.mp hfresh) ?_
        split <;> rfl
      · refine h.remove rfl (by simp) (by simp) fun t' ht' v hv hid => ?_
        have hu := (h.sync _ (Multiset.mem_cons_self _ _) u rfl).1
        have hv' := (h.sync t' (Multiset.mem_cons_of_mem ht') v hv).1
        have hidu : sh.table.idOf u = some op.lInvokeID := by
          rw [Table.idOf, show sh.table.objects[u]? = some op from hop]
          rfl
        obtain rfl := h.good.unique v hv' u hu (hid.trans hidu.symm)
        exact h.sender_ne ht' (sender_of_syncSender hv) rfl
      · obtain ⟨op, hfind, hop, hasync, rfl⟩ := claim_eq_some hclaim
        obtain ⟨hu, hidu⟩ := (Table.find_eq_some h.good).mp hfind
        refine h.remove rfl (by simp [Thread.sender]) ?_ fun t' ht' v hv hid => ?_
        · intro t' ht' v hv
          rw [List.mem_singleton.mp ht'] at hv
          obtain rfl := Option.some.inj hv
          exact h.good.exist u hu
        · obtain ⟨hv', op', hop', hfalse⟩ := h.sync t' (Multiset.mem_cons_of_mem ht') v hv
          obtain rfl := h.good.unique v hv' u hu (hid.trans hidu.symm)
          obtain rfl : op = op' := Option.some.inj (hop.symm.trans hop')
          simp [hasync] at hfalse

/-- An operation stays in the table until it is finished or its sender returns. -/
theorem Base.mem_pending {sh sh' : Shared} {choice : Choice} {t : Thread}
    {threads : Multiset Thread} {next : List Thread} {l : Label} {u : ℕ}
    (h : Base ⟨sh, t ::ₘ threads⟩) (hact : act sh choice t = some (sh', next, l))
    (hl : l.isFresh = true) (hu : u ∈ sh.table.pending)
    (hsender : t.syncSender ≠ some u) : u ∈ sh'.table.pending ∨ l = .finished u := by
  have hgood := h.good
  rcases act_cases hact with hq | ⟨kind, id, iTimeout, rfl, rfl, rfl, -⟩ |
    ⟨v, r, op, rfl, hop, rfl, -, rfl⟩ | ⟨id, r, m, caller, v, rfl, hclaim, rfl, -⟩
  · exact .inl (by rwa [hq.pending])
  · left
    rw [Table.addPendingOperation_of_none (Option.isNone_iff_eq_none.mp hl)]
    exact List.mem_append_left _ hu
  · left
    refine Table.mem_removePendingOperation.mpr ⟨hu, fun hid => hsender ?_⟩
    have hv := (h.sync _ (Multiset.mem_cons_self _ _) v rfl).1
    have hidv : sh.table.idOf v = some op.lInvokeID := by
      rw [Table.idOf, show sh.table.objects[v]? = some op from hop]
      rfl
    rw [hgood.unique u hu v hv (hid.trans hidv.symm)]
    rfl
  · obtain ⟨op, hfind, -, -, rfl⟩ := claim_eq_some hclaim
    obtain ⟨hv, hidv⟩ := (Table.find_eq_some hgood).mp hfind
    by_cases hid : sh.table.idOf u = some id
    · exact .inr (by rw [hgood.unique u hu v hv (hid.trans hidv.symm)])
    · exact .inl (Table.mem_removePendingOperation.mpr ⟨hu, hid⟩)

/-- What is in the table after a step and was not is a new operation. -/
theorem act_pending {sh sh' : Shared} {choice : Choice} {t : Thread} {next : List Thread}
    {l : Label} {u : ℕ} (h : act sh choice t = some (sh', next, l)) (hl : l.isFresh = true)
    (hu : u ∈ sh'.table.pending) (hlt : u < sh.table.objects.length) : u ∈ sh.table.pending := by
  rcases act_cases h with hq | ⟨kind, id, iTimeout, rfl, rfl, rfl, -⟩ |
    ⟨v, r, op, rfl, hop, rfl, -, rfl⟩ | ⟨id, r, m, caller, v, rfl, hclaim, rfl, -⟩
  · rwa [hq.pending] at hu
  · rw [Table.addPendingOperation_of_none (Option.isNone_iff_eq_none.mp hl)] at hu
    refine (List.mem_append.mp hu).resolve_right fun hu => ?_
    exact hlt.ne (List.mem_singleton.mp hu)
  · exact (Table.mem_removePendingOperation.mp hu).1
  · obtain ⟨op, -, -, -, rfl⟩ := claim_eq_some hclaim
    exact (Table.mem_removePendingOperation.mp hu).1

/-- An operation that comes into being is not an asynchronous one yet. -/
theorem act_new {sh sh' : Shared} {choice : Choice} {t : Thread} {next : List Thread}
    {l : Label} {u : ℕ} (h : act sh choice t = some (sh', next, l)) (hl : l.isFresh = true)
    (hnone : sh.object u = none) {op : PendingOperation} (hop : sh'.object u = some op) :
    op.bAsyncInvoke = false := by
  rcases act_cases h with hq | ⟨kind, id, iTimeout, rfl, rfl, rfl, -⟩ |
    ⟨v, r, op, rfl, -, -, -, rfl⟩ | ⟨id, r, m, caller, v, rfl, hclaim, -, -⟩
  · have hlt : u < sh'.table.objects.length := (List.getElem?_eq_some_iff.mp hop).1
    rw [hq.length] at hlt
    exact absurd (List.getElem?_eq_none_iff.mp hnone) (by omega)
  · rw [Table.addPendingOperation_of_none (Option.isNone_iff_eq_none.mp hl),
      Shared.object, Shared.setTable] at hop
    rw [Shared.object] at hnone
    grind [PendingOperation.create]
  · cases hnone.symm.trans hop
  · obtain ⟨op', -, -, -, rfl⟩ := claim_eq_some hclaim
    cases hnone.symm.trans hop

end PendingInvokes

end Esnacc
