import Esnacc.Rose.InvokeSteps

/-!
How often the completion callback of an asynchronous invoke is called. The calls that
are in the past and the threads that are on their way to one make up one account for
each operation.
-/

namespace Esnacc

namespace PendingInvokes

open PendingTable

/-- The thread is on its way to the callback of an operation. -/
def Thread.callsBack (sh : Shared) (u : ℕ) : Thread → Bool
  | .claimed v _ _ _ => decide (v = u) && (sh.object v).any fun op => !op.bFireAndForgetAsync
  | .notifying callback _ | .notified _ callback _ | .callingBack callback _ =>
      callback.any fun c => decide (c.1 = u)
  | _ => false

def Label.isCallback (u : ℕ) : Label → Bool
  | .calledBack v _ => decide (v = u)
  | _ => false

/-- The calls of the callback of an operation. -/
def callbacks (u : ℕ) (trace : List Label) : ℕ := trace.countP (Label.isCallback u)

/-- The threads on their way to the callback of an operation. -/
def callers (u : ℕ) (s : State) : ℕ := s.threads.countP fun t => t.callsBack s.shared u

/-- An asynchronous operation that is not fire-and-forget has left the table. -/
def due (sh : Shared) (u : ℕ) : Bool :=
  decide (u ∉ sh.table.pending) &&
    (sh.object u).any fun op => op.bAsyncInvoke && !op.bFireAndForgetAsync

/-- The callback of an operation is called at most once, and never for a
fire-and-forget invoke. It is not called before the operation leaves the table; from
then on it has been called, or one thread is on its way to the call and nothing can
block it. -/
def CallsBackOnce (trace : List Label) (s : State) : Prop :=
  ∀ u op, s.shared.object u = some op →
    callbacks u trace ≤ 1 ∧
    (op.bFireAndForgetAsync = true → callbacks u trace = 0) ∧
    (u ∈ s.shared.table.pending → callbacks u trace = 0) ∧
    (op.bAsyncInvoke = true → op.bFireAndForgetAsync = false → u ∉ s.shared.table.pending →
      callbacks u trace + callers u s = 1) ∧
    ∀ t ∈ s.threads, t.callsBack s.shared u → ∀ choice, (act s.shared choice t).isSome

/-- No two pending invokes have one id, and an operation that is finished has its
context or is known to be fire-and-forget. -/
def FinishesComplete (s : State) (l : Label) : Prop :=
  l.isFresh = true ∧ ∀ u, l = .finished u → ∀ op, s.shared.object u = some op →
    op.pAsyncContext = true ∨ op.bFireAndForgetAsync = true

/-- What is true of an operation until a stage of its setup. -/
def Setup.Waits (pending : Prop) (op : PendingOperation) : Setup → Prop
  | .markAsync | .markFireAndForget =>
      pending ∧ op.pAsyncContext = false ∧ op.bFireAndForgetAsync = false
  | .setContext => op.pAsyncContext = false ∧ (pending ∨ op.bFireAndForgetAsync = true)
  | _ => True

/-- The account of the callbacks, with what is known of the operations that are set up
and of those that are claimed. -/
structure Accounted (trace : List Label) (s : State) : Prop where
  base : Base s
  waits : ∀ stage u iTimeout, .settingUp stage u iTimeout ∈ s.threads →
    ∃ op, s.shared.object u = some op ∧ stage.Waits (u ∈ s.shared.table.pending) op
  claimed : ∀ u lRoseResult message caller, .claimed u lRoseResult message caller ∈ s.threads →
    u ∉ s.shared.table.pending ∧ ∃ op, s.shared.object u = some op ∧
      (op.pAsyncContext = true ∨ op.bFireAndForgetAsync = true)
  account : ∀ u, callbacks u trace + callers u s = (due s.shared u).toNat

/-! ### What a step does -/

theorem next_callsBack {caller : Caller} {t : Thread} (h : t ∈ caller.next) (sh : Shared) (u : ℕ) :
    t.callsBack sh u = false := by
  rcases mem_next h with ⟨p, rfl⟩ | rfl | ⟨id, r, caller', rfl⟩ <;> rfl

theorem countP_next_callsBack (caller : Caller) (sh : Shared) (u : ℕ) :
    caller.next.countP (fun t => t.callsBack sh u) = 0 := by
  rw [List.countP_eq_zero]
  intro t ht
  simp [next_callsBack ht]

theorem countP_callsBack (t : Thread) (sh : Shared) (u : ℕ) :
    [t].countP (fun t => t.callsBack sh u) = (t.callsBack sh u).toNat := by
  cases h : t.callsBack sh u <;> simp [h]

theorem callingBack_of_isCallback {l : Label} {t : Thread} {u : ℕ} (h : l.IsOf t)
    (hl : l.isCallback u = true) : ∃ callback caller, t = .callingBack callback caller := by
  cases l with
  | calledBack v r =>
      obtain ⟨caller, rfl⟩ := h
      exact ⟨_, caller, rfl⟩
  | _ => cases hl

/-- A finisher stays on its way until it has called back, and no other thread gets on
its way but by a claim. -/
theorem act_callsBack {sh sh' : Shared} {choice : Choice} {t : Thread} {next : List Thread}
    {l : Label} (h : act sh choice t = some (sh', next, l)) (hl : ∀ u, l ≠ .finished u)
    (hclaimed : ∀ u r m caller, t = .claimed u r m caller → ∃ op, sh.object u = some op ∧
      (op.pAsyncContext = true ∨ op.bFireAndForgetAsync = true)) (u : ℕ) :
    (l.isCallback u).toNat + next.countP (fun t => t.callsBack sh' u) =
      (t.callsBack sh u).toNat := by
  have hnone (hlabel : ∀ callback caller, t ≠ .callingBack callback caller)
      (ht : t.callsBack sh u = false) (hnext : ∀ t' ∈ next, t'.callsBack sh' u = false) :
      (l.isCallback u).toNat + next.countP (fun t => t.callsBack sh' u) =
        (t.callsBack sh u).toNat := by
    have hzero : next.countP (fun t => t.callsBack sh' u) = 0 := by
      rw [List.countP_eq_zero]
      intro t' ht'
      simp [hnext t' ht']
    have hsilent : l.isCallback u = false := by
      rw [Bool.eq_false_iff]
      intro hl
      obtain ⟨callback, caller, rfl⟩ := callingBack_of_isCallback (label_isOf h) hl
      exact hlabel callback caller rfl
    rw [hsilent, ht, hzero]
    rfl
  cases t with
  | finish id r message caller =>
      simp only [act] at h
      split at h <;> cases h
      · exact absurd rfl (hl _)
      · exact hnone (by simp) rfl fun t' ht' => next_callsBack ht' sh u
  | claimed v r message caller =>
      obtain ⟨op, hop, hctx⟩ := hclaimed v r message caller rfl
      simp only [act, hop, Option.map_some, Option.some.injEq, Prod.mk.injEq] at h
      obtain ⟨rfl, rfl, rfl⟩ := h
      rw [countP_callsBack]
      cases hfaf : op.bFireAndForgetAsync with
      | true => simp [Label.isCallback, Thread.callsBack, hop, callbackOf, hfaf]
      | false =>
          have hsome : (callbackOf op v r message).map Prod.fst = some v := by
            simp only [callbackOf, hfaf, hctx.resolve_right (by simp [hfaf])]
            cases message.or op.pAnswerMessage <;> rfl
          obtain ⟨⟨w, r'⟩, hcallback, rfl⟩ := Option.map_eq_some_iff.mp hsome
          simp [Label.isCallback, Thread.callsBack, hop, hfaf, hcallback]
  | notifying callback caller =>
      cases h
      rw [countP_callsBack]
      simp [Label.isCallback, Thread.callsBack]
  | notified stopWatchdog callback caller =>
      cases h
      rw [countP_callsBack]
      simp [Label.isCallback, Thread.callsBack]
  | callingBack callback caller =>
      cases callback <;> cases h <;> rw [countP_next_callsBack] <;>
        simp [Label.isCallback, Thread.callsBack]
  | settingUp stage v iTimeout =>
      obtain rfl : _ = next := congrArg (·.2.1) (Option.some.inj h)
      refine hnone (by simp) rfl fun t' ht' => ?_
      rcases setUp_next ht' with rfl | ⟨stage', rfl⟩ | rfl <;> rfl
  | asyncSending v iTimeout =>
      refine hnone (by simp) rfl fun t' ht' => ?_
      obtain ⟨id, r, rfl⟩ := (asyncSending_spec h).2.2 t' ht'
      rfl
  | syncSending v iTimeout =>
      refine hnone (by simp) rfl fun t' ht' => ?_
      obtain ⟨-, -, rfl | rfl | ⟨r, rfl⟩⟩ := syncSending_spec h
      · cases ht'
      · rw [List.mem_singleton.mp ht']
        rfl
      · rw [List.mem_singleton.mp ht']
        rfl
  | completeAll p =>
      cases h
      exact hnone (by simp) rfl fun t' ht' => next_callsBack ht' _ u
  | processTimeouts =>
      cases h
      exact hnone (by simp) rfl fun t' ht' => next_callsBack ht' _ u
  | watchdogWait armed =>
      refine hnone (by simp) rfl fun t' ht' => ?_
      rcases (watch_spec h).2 t' ht' with rfl | rfl | rfl <;> rfl
  | _ =>
      refine hnone (by simp) rfl fun t' ht' => ?_
      clear hnone hclaimed
      grind [act, wait, completePendingOperation, Thread.callsBack, Option.map_eq_some_iff,
        Option.bind_eq_some_iff]

/-- What is true until a stage is true until the next one. -/
theorem Setup.Waits.next {pending : Prop} {op : PendingOperation} {stage stage' : Setup}
    {sh : Shared} {u : ℕ} {iTimeout : ℤ} (h : stage'.Waits pending op)
    (hnext : .settingUp stage u iTimeout ∈ (setUp sh stage' u iTimeout).2.1) :
    stage.Waits pending (stage'.write iTimeout op) := by
  cases stage' <;> grind [setUp, Setup.Waits, Setup.write]

/-! ### The account -/

theorem accounted_init : Accounted [] .init :=
  ⟨base_init, by simp [State.init], by simp [State.init], fun u => by
    rw [callers, State.init, Multiset.countP_zero]
    simp [callbacks, due, Shared.init, Shared.object, Table.init]⟩

/-- What is true until a stage stays true while other threads act. -/
theorem Accounted.waits_other {trace : List Label} {sh sh' : Shared} {choice : Choice}
    {t : Thread} {threads : Multiset Thread} {next : List Thread} {l : Label}
    (h : Accounted trace ⟨sh, t ::ₘ threads⟩) (hact : act sh choice t = some (sh', next, l))
    (hl : FinishesComplete ⟨sh, t ::ₘ threads⟩ l) {stage : Setup} {u : ℕ} {iTimeout : ℤ}
    (ht : .settingUp stage u iTimeout ∈ threads) :
    ∃ op, sh'.object u = some op ∧ stage.Waits (u ∈ sh'.table.pending) op := by
  obtain ⟨op, hop, hwaits⟩ := h.waits stage u iTimeout (Multiset.mem_cons_of_mem ht)
  have hsender := h.base.sender_ne ht rfl
  obtain ⟨op', hop', ⟨stage', iTimeout', rfl, -⟩ | ⟨-, hsame⟩⟩ := act_object hact hop
  · exact absurd rfl hsender
  have hpending (hu : u ∈ sh.table.pending) : u ∈ sh'.table.pending ∨ l = .finished u :=
    h.base.mem_pending hact hl.1 hu fun hsync => hsender (sender_of_syncSender hsync)
  obtain ⟨-, -, hfaf, hctx, -⟩ := hsame
  refine ⟨op', hop', ?_⟩
  have hearly (hw : u ∈ sh.table.pending ∧ op.pAsyncContext = false ∧
      op.bFireAndForgetAsync = false) : u ∈ sh'.table.pending ∧ op'.pAsyncContext = false ∧
      op'.bFireAndForgetAsync = false := by
    refine ⟨(hpending hw.1).resolve_right fun hfinished => ?_, hctx.trans hw.2.1,
      hfaf.trans hw.2.2⟩
    have := hl.2 u hfinished op hop
    simp [hw.2.1, hw.2.2] at this
  cases stage with
  | markAsync => exact hearly hwaits
  | markFireAndForget => exact hearly hwaits
  | setContext =>
      obtain ⟨hnone, hu | hset⟩ := hwaits
      · rcases hpending hu with hu | hfinished
        · exact ⟨hctx.trans hnone, .inl hu⟩
        · have := hl.2 u hfinished op hop
          exact ⟨hctx.trans hnone, .inr (hfaf.trans (this.resolve_left (by simp [hnone])))⟩
      · exact ⟨hctx.trans hnone, .inr (hfaf.trans hset)⟩
  | _ => trivial

theorem Accounted.waits_step {trace : List Label} {sh sh' : Shared} {choice : Choice}
    {t : Thread} {threads : Multiset Thread} {next : List Thread} {l : Label}
    (h : Accounted trace ⟨sh, t ::ₘ threads⟩) (hact : act sh choice t = some (sh', next, l))
    (hl : FinishesComplete ⟨sh, t ::ₘ threads⟩ l) {stage : Setup} {u : ℕ} {iTimeout : ℤ}
    (ht : .settingUp stage u iTimeout ∈ ↑next + threads) :
    ∃ op, sh'.object u = some op ∧ stage.Waits (u ∈ sh'.table.pending) op := by
  rcases Multiset.mem_add.mp ht with ht | ht
  · rcases act_settingUp hact (Multiset.mem_coe.mp ht) with ⟨rfl, kind, id, rfl⟩ |
      ⟨stage', rfl, hnext⟩
    · cases hact
      obtain hnone := Option.isNone_iff_eq_none.mp hl.1
      rw [Table.addPendingOperation_of_none hnone] at ht ⊢
      have heq := List.mem_singleton.mp (Multiset.mem_coe.mp ht)
      split at heq
      · cases heq
      · cases heq
        exact ⟨.create id, by simp [Shared.object, Shared.setTable],
          List.mem_append_right _ (List.mem_singleton_self _), rfl, rfl⟩
    · obtain ⟨op, hop, hwaits⟩ := h.waits stage' u iTimeout (Multiset.mem_cons_self _ _)
      obtain rfl : _ = sh' := congrArg Prod.fst (Option.some.inj hact)
      refine ⟨stage'.write iTimeout op, by rw [setUp_object, hop]; simp, ?_⟩
      rw [(setUp_quiet sh stage' u iTimeout).pending]
      exact hwaits.next hnext
  · exact h.waits_other hact hl ht

theorem Accounted.claimed_step {trace : List Label} {sh sh' : Shared} {choice : Choice}
    {t : Thread} {threads : Multiset Thread} {next : List Thread} {l : Label}
    (h : Accounted trace ⟨sh, t ::ₘ threads⟩) (hact : act sh choice t = some (sh', next, l))
    (hl : FinishesComplete ⟨sh, t ::ₘ threads⟩ l) {u : ℕ} {r : RoseResult} {m : Option Message}
    {caller : Caller} (ht : .claimed u r m caller ∈ ↑next + threads) :
    u ∉ sh'.table.pending ∧ ∃ op, sh'.object u = some op ∧
      (op.pAsyncContext = true ∨ op.bFireAndForgetAsync = true) := by
  rcases Multiset.mem_add.mp ht with ht | ht
  · obtain rfl := act_claimed hact (Multiset.mem_coe.mp ht)
    obtain ⟨id, r, m, caller, rfl⟩ := label_isOf hact
    simp only [act] at hact
    split at hact
    · next claimed hclaim =>
        cases hact
        obtain ⟨op, hfind, hop, -, heq⟩ := claim_eq_some hclaim
        rw [heq]
        refine ⟨fun hmem => ?_, op, hop, hl.2 _ rfl op hop⟩
        exact (Table.mem_removePendingOperation.mp hmem).2
          ((Table.find_eq_some h.base.good).mp hfind).2
    · cases hact
  · obtain ⟨hout, op, hop, hctx⟩ := h.claimed u r m caller (Multiset.mem_cons_of_mem ht)
    have hlt : u < sh.table.objects.length := (List.getElem?_eq_some_iff.mp hop).1
    obtain ⟨op', hop', hwrite | ⟨-, hsame⟩⟩ := act_object hact hop
    · obtain ⟨stage, iTimeout, rfl, rfl⟩ := hwrite
      refine ⟨fun hmem => hout (act_pending hact hl.1 hmem hlt), _, hop', ?_⟩
      obtain ⟨op₁, hop₁, hwaits⟩ := h.waits stage u iTimeout (Multiset.mem_cons_self _ _)
      obtain rfl : op = op₁ := Option.some.inj (hop.symm.trans hop₁)
      cases stage with
      | markAsync => exact absurd hwaits.1 hout
      | markFireAndForget => exact absurd hwaits.1 hout
      | setContext => exact .inl rfl
      | _ => exact hctx
    · refine ⟨fun hmem => hout (act_pending hact hl.1 hmem hlt), op', hop', ?_⟩
      rw [hsame.2.2.1, hsame.2.2.2.1]
      exact hctx

/-- An operation that comes into being is not due, and for the others nothing changes
but by a claim. -/
theorem Accounted.due_step {trace : List Label} {sh sh' : Shared} {choice : Choice}
    {t : Thread} {threads : Multiset Thread} {next : List Thread} {l : Label}
    (h : Accounted trace ⟨sh, t ::ₘ threads⟩) (hact : act sh choice t = some (sh', next, l))
    (hfresh : l.isFresh = true) {u : ℕ} (hl : l ≠ .finished u) : due sh' u = due sh u := by
  cases hop : sh.object u with
  | none =>
      have hnew : ∀ op, sh'.object u = some op → op.bAsyncInvoke = false :=
        fun op => act_new hact hfresh hop
      rw [due, due, hop]
      cases hop' : sh'.object u with
      | none => simp
      | some op => simp [hnew op hop']
  | some op =>
      have hlt : u < sh.table.objects.length := (List.getElem?_eq_some_iff.mp hop).1
      obtain ⟨op', hop', hwrite⟩ := act_object hact hop
      by_cases hsync : t.syncSender = some u
      · obtain ⟨-, op₁, hop₁, hfalse⟩ := h.base.sync t (Multiset.mem_cons_self _ _) u hsync
        obtain rfl : op = op₁ := Option.some.inj (hop.symm.trans hop₁)
        rcases hwrite with ⟨stage, iTimeout, rfl, -⟩ | ⟨-, hsame⟩
        · cases hsync
        · simp [due, hop, hop', hfalse, hsame.2.1]
      · have hpending : u ∈ sh'.table.pending ↔ u ∈ sh.table.pending :=
          ⟨fun hu => act_pending hact hfresh hu hlt,
            fun hu => (h.base.mem_pending hact hfresh hu hsync).resolve_right hl⟩
        have hdecide : decide (u ∉ sh'.table.pending) = decide (u ∉ sh.table.pending) := by
          simp [hpending]
        rcases hwrite with ⟨stage, iTimeout, rfl, rfl⟩ | ⟨-, hsame⟩
        · obtain ⟨op₁, hop₁, hwaits⟩ := h.waits stage u iTimeout (Multiset.mem_cons_self _ _)
          rw [due, due, hop, hop', hdecide]
          cases stage with
          | markAsync => simp [hwaits.1]
          | markFireAndForget => simp [hwaits.1]
          | _ => rfl
        · rw [due, due, hop, hop', hdecide]
          simp [hsame.2.1, hsame.2.2.1]

/-- The operation that is claimed becomes due, unless it is fire-and-forget. -/
theorem due_claim {sh : Shared} {id : ℤ} {v : ℕ} {op : PendingOperation} {count : ℕ}
    (hgood : sh.table.Good) (hmem : v ∈ sh.table.pending) (hid : sh.table.idOf v = some id)
    (hop : sh.object v = some op) (hasync : op.bAsyncInvoke = true) (u : ℕ) :
    (due { sh with table := sh.table.removePendingOperation id, asyncDeadlineCount := count }
      u).toNat = (due sh u).toNat + (decide (v = u) && !op.bFireAndForgetAsync).toNat := by
  by_cases hu : v = u
  · subst hu
    have hout : v ∉ (sh.table.removePendingOperation id).pending :=
      fun h => (Table.mem_removePendingOperation.mp h).2 hid
    have hop' : Shared.object { sh with
        table := sh.table.removePendingOperation id, asyncDeadlineCount := count } v =
        some op := hop
    rw [due, due, hop', hop]
    simp [hout, hmem, hasync]
  · have hpending : u ∈ (sh.table.removePendingOperation id).pending ↔ u ∈ sh.table.pending :=
      ⟨fun h => (Table.mem_removePendingOperation.mp h).1, fun h =>
        Table.mem_removePendingOperation.mpr ⟨h, fun hidu =>
          hu (hgood.unique v hmem u h (hid.trans hidu.symm))⟩⟩
    have hdecide : decide (u ∉ (sh.table.removePendingOperation id).pending) =
        decide (u ∉ sh.table.pending) := by simp [hpending]
    simp only [due, hdecide, hu, decide_false, Bool.false_and, Bool.toNat_false, add_zero]
    rfl

/-- What another thread does leaves a finisher on its way. -/
theorem Accounted.callsBack_other {trace : List Label} {sh sh' : Shared} {choice : Choice}
    {t t' : Thread} {threads : Multiset Thread} {next : List Thread} {l : Label}
    (h : Accounted trace ⟨sh, t ::ₘ threads⟩) (hact : act sh choice t = some (sh', next, l))
    (ht' : t' ∈ threads) (u : ℕ) : t'.callsBack sh' u = t'.callsBack sh u := by
  cases t' with
  | claimed v r m caller =>
      obtain ⟨hout, op, hop, -⟩ := h.claimed v r m caller (Multiset.mem_cons_of_mem ht')
      obtain ⟨op', hop', ⟨stage, iTimeout, rfl, rfl⟩ | ⟨-, hsame⟩⟩ := act_object hact hop
      · obtain ⟨op₁, hop₁, hwaits⟩ := h.waits stage v iTimeout (Multiset.mem_cons_self _ _)
        rw [Thread.callsBack, Thread.callsBack, hop, hop']
        cases stage with
        | markFireAndForget => exact absurd hwaits.1 hout
        | _ => rfl
      · simp [Thread.callsBack, hop, hop', hsame.2.2.1]
  | _ => rfl

theorem Accounted.account_step {trace : List Label} {sh sh' : Shared} {choice : Choice}
    {t : Thread} {threads : Multiset Thread} {next : List Thread} {l : Label}
    (h : Accounted trace ⟨sh, t ::ₘ threads⟩) (hact : act sh choice t = some (sh', next, l))
    (hfresh : l.isFresh = true) (u : ℕ) :
    callbacks u (trace ++ [l]) + callers u ⟨sh', ↑next + threads⟩ = (due sh' u).toNat := by
  have haccount : callbacks u trace + callers u ⟨sh, t ::ₘ threads⟩ = (due sh u).toNat :=
    h.account u
  have hother : threads.countP (fun t' => t'.callsBack sh' u) =
      threads.countP (fun t' => t'.callsBack sh u) :=
    Multiset.countP_congr rfl fun t' ht' => by rw [h.callsBack_other hact ht' u]
  have hcallbacks : callbacks u (trace ++ [l]) =
      callbacks u trace + (l.isCallback u).toNat := by
    rw [callbacks, callbacks, List.countP_append]
    cases hl : l.isCallback u <;> simp [hl]
  have hbefore : callers u ⟨sh, t ::ₘ threads⟩ =
      threads.countP (fun t' => t'.callsBack sh u) + (t.callsBack sh u).toNat := by
    rw [callers, Multiset.countP_cons]
    cases t.callsBack sh u <;> simp
  have hafter : callers u ⟨sh', ↑next + threads⟩ =
      next.countP (fun t' => t'.callsBack sh' u) + threads.countP (fun t' => t'.callsBack sh u) := by
    rw [callers, Multiset.countP_add, hother, Multiset.coe_countP]
    simp
  by_cases hl : ∃ v, l = .finished v
  · obtain ⟨v, rfl⟩ := hl
    obtain ⟨id, r, m, caller, rfl⟩ := label_isOf hact
    simp only [act] at hact
    split at hact
    · next claimed hclaim =>
        cases hact
        obtain ⟨op, hfind, hop, hasync, heq⟩ := claim_eq_some hclaim
        obtain ⟨hmem, hid⟩ := (Table.find_eq_some h.base.good).mp hfind
        have hnext : (due claimed.2 u).toNat = (due sh u).toNat +
            ((Thread.claimed claimed.1 r m caller).callsBack claimed.2 u).toNat := by
          have hop' : claimed.2.object claimed.1 = some op := by
            rw [heq]
            exact hop
          rw [Thread.callsBack, hop', heq]
          exact due_claim h.base.good hmem hid hop hasync u
        rw [countP_callsBack] at hafter
        rw [hcallbacks, hafter, hnext, ← haccount, hbefore]
        simp only [Label.isCallback, Thread.callsBack, Bool.toNat_false]
        omega
    · cases hact
  · have hstep := act_callsBack hact (fun v hv => hl ⟨v, hv⟩) (fun v r m caller ht => by
      subst ht
      exact (h.claimed v r m caller (Multiset.mem_cons_self _ _)).2) u
    have hdue := h.due_step hact hfresh (fun hv => hl ⟨u, hv⟩)
    rw [hdue]
    omega

theorem callsBack_of_isCall {t : Thread} (h : t.isCall) (sh : Shared) (u : ℕ) :
    t.callsBack sh u = false := by
  cases t with
  | issuing | response | pause | resume => rfl
  | _ => cases h

theorem Accounted.step {trace : List Label} {s s' : State} {l : Label} (h : Accounted trace s)
    (hstep : Step s l s') (hl : FinishesComplete s l) : Accounted (trace ++ [l]) s' := by
  cases hstep with
  | @call sh threads t hcall howner =>
      have hnone := operation_of_isCall hcall
      refine ⟨h.base.step (.call t hcall howner) hl.1, fun stage u iTimeout ht => ?_,
        fun u r m caller ht => ?_, fun u => ?_⟩
      · rcases Multiset.mem_cons.mp ht with rfl | ht
        · cases hnone
        · exact h.waits stage u iTimeout ht
      · rcases Multiset.mem_cons.mp ht with rfl | ht
        · cases hnone
        · exact h.claimed u r m caller ht
      · have hsilent := callsBack_of_isCall hcall sh u
        have haccount : callbacks u trace + callers u ⟨sh, threads⟩ = (due sh u).toNat := h.account u
        rw [← haccount, callbacks, List.countP_append, callers, Multiset.countP_cons, hsilent]
        rfl
  | act choice hact =>
      exact ⟨h.base.step (.act choice hact) hl.1, fun stage u iTimeout => h.waits_step hact hl,
        fun u r m caller => h.claimed_step hact hl, h.account_step hact hl.1⟩

/-- Nothing blocks a thread that is on its way to a callback. -/
theorem act_isSome {s : State} (h : Base s) {t : Thread} (ht : t ∈ s.threads) {u : ℕ}
    (hcalls : t.callsBack s.shared u = true) (choice : Choice) :
    (act s.shared choice t).isSome := by
  cases t with
  | claimed v r m caller =>
      have hlt := h.exist _ ht v rfl
      rw [act, Shared.object, List.getElem?_eq_getElem hlt]
      rfl
  | notifying callback caller => rfl
  | notified stopWatchdog callback caller => rfl
  | callingBack callback caller => cases callback <;> rfl
  | _ => cases hcalls

theorem calls_back_once {trace : List Label} {s : State}
    (h : Transition.Run (Transition.restrict Step FinishesComplete) .init trace s) :
    CallsBackOnce trace s := by
  have haccounted : Accounted trace s :=
    h.invariant accounted_init fun trace s l s' haccounted hstep =>
      haccounted.step hstep.1 hstep.2
  intro u op hop
  have haccount := haccounted.account u
  have hone : (due s.shared u).toNat ≤ 1 := Bool.toNat_le _
  refine ⟨by omega, fun hfaf => ?_, fun hu => ?_, fun hasync hfaf hu => ?_,
    fun t ht hcalls choice => act_isSome haccounted.base ht hcalls choice⟩
  · have hdue : due s.shared u = false := by simp [due, hop, hfaf]
    rw [hdue] at haccount
    exact (Nat.add_eq_zero_iff.mp haccount).1
  · have hdue : due s.shared u = false := by simp [due, hu]
    rw [hdue] at haccount
    exact (Nat.add_eq_zero_iff.mp haccount).1
  · have hdue : due s.shared u = true := by simp [due, hop, hasync, hfaf, hu]
    rwa [hdue] at haccount

/-- An invoke without a time limit is sent and answered twice. -/
theorem calls_back_once_answered : CallsBackOnce
    [.silent, .issued 1, .silent, .added 0 true, .silent, .silent, .silent, .sent 0 (some 0),
      .silent, .silent, .silent, .silent, .finished 0, .silent, .silent, .silent, .silent,
      .calledBack 0 5]
    ⟨⟨true, ⟨1, [⟨1, none, 0, false, true, false, true, false⟩], []⟩, 0, true, false⟩,
      ↑([] : List Thread)⟩ := by
  let choice : Choice := ⟨some 0, false, [], 0⟩
  refine calls_back_once (@Threads.run_of_playWhile _ _ _ _ system _
    (fun sh _ l => l.isFresh && match l with
      | .finished u => (sh.object u).all fun op => op.pAsyncContext || op.bFireAndForgetAsync
      | _ => true) ?_
    [.call (.issuing .async (-1)), .act 0 choice, .act 0 choice, .act 0 choice, .act 0 choice,
      .act 0 choice, .act 0 choice, .act 0 choice, .call (.response 1 ⟨0, 5⟩),
      .call (.response 1 ⟨0, 5⟩), .act 0 choice, .act 1 choice, .act 0 choice, .act 1 choice,
      .act 0 choice, .act 0 choice, .act 0 choice, .act 0 choice] .init _ [] _ _ (by decide))
  intro sh threads l h
  simp only [Bool.and_eq_true] at h
  refine ⟨h.1, ?_⟩
  rintro u rfl op hop
  have hall := h.2
  simp only [hop, Option.all_some, Bool.or_eq_true] at hall
  exact hall

/-- The pause finishes an operation that is marked as asynchronous and has no context
yet. It leaves the table without a callback, and the sender sends the invoke. -/
theorem not_callsBackOnce :
    ¬ ∀ (trace : List Label) (s : State), Transition.Run Step .init trace s →
      CallsBackOnce trace s := by
  intro h
  let choice : Choice := ⟨some 0, false, [], 0⟩
  have hplay : Threads.play system [.call (.issuing .async (-1)), .act 0 choice, .act 0 choice,
      .act 0 choice, .act 0 choice, .call (.pause 7), .act 0 choice, .act 0 choice, .act 0 choice,
      .act 0 choice, .act 0 choice, .act 0 choice, .act 0 choice, .act 0 choice, .act 0 choice,
      .act 0 choice, .act 0 choice] (.init, []) =
      some ([.silent, .issued 1, .silent, .added 0 true, .silent, .silent, .paused 7,
          .completedAll 7 [], .finished 0, .silent, .silent, .silent, .silent, .pauseReturned 7,
          .silent, .silent, .sent 0 (some 0)],
        ⟨false, ⟨1, [⟨1, none, 0, false, true, false, true, false⟩], []⟩, 0, true, false⟩, []) := by
    decide
  obtain ⟨-, -, -, hcalled, -⟩ := h _ _ (Threads.run_of_play hplay) 0 _ rfl
  exact absurd (hcalled rfl rfl (by decide)) (by decide)

end PendingInvokes

end Esnacc
