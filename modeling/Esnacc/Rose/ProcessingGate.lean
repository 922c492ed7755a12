import Esnacc.Rose.InvokeSteps

/-!
What a pause leaves behind: the invokes that are past the gate when it closes, and
the operations in the table when the pause returns.
-/

namespace Esnacc

namespace PendingInvokes

open PendingTable

/-- The thread has passed the gate and its invoke is not sent yet. -/
def Thread.pastGate : Thread → Bool
  | .adding _ _ _ | .settingUp _ _ _ | .asyncSending _ _ | .syncSending _ _ => true
  | _ => false

/-- An invoke enters the table or is sent. -/
def Label.PassesGate : Label → Prop
  | .added _ _ | .sent _ _ => True
  | _ => False

def Label.isPaused : Label → Bool
  | .paused _ => true
  | _ => false

def Caller.toFinish : Caller → Option (ℕ × List ℤ)
  | .pause p ids => some (p, ids)
  | _ => none

/-- The pause that a thread carries out and the ids that are left to it, once it has
completed the synchronous operations. -/
def Thread.toFinish : Thread → Option (ℕ × List ℤ)
  | .finish id _ _ (.pause p ids) => some (p, id :: ids)
  | .claimed _ _ _ caller | .notifying _ caller | .notified _ _ caller | .callingBack _ caller =>
      caller.toFinish
  | .pauseReturning p => some (p, [])
  | _ => none

/-- Every operation in the table is one of `us` or an asynchronous one with an id of
the list. -/
def Remains (us : List ℕ) (ids : List ℤ) (sh : Shared) : Prop :=
  ∀ u ∈ sh.table.pending, u ∈ us ∨
    ∃ op, sh.object u = some op ∧ op.bAsyncInvoke = true ∧ op.lInvokeID ∈ ids

/-- While the gate is closed no invoke is behind it and none enters the table or is
sent. After the pause has returned, every operation in the table is one that it
completed, and so is every one that a synchronous sender has sent. -/
def LeavesNothingBehind (trace : List Label) (s : State) : Prop :=
  ∀ before p after, trace = before ++ .paused p :: after → Label.resumed ∉ after →
    (∀ t ∈ s.threads, t.pastGate = false) ∧ (∀ l ∈ after, ¬ l.PassesGate) ∧
    (Label.pauseReturned p ∈ after → ∃ us, Label.completedAll p us ∈ after ∧
      (∀ u ∈ s.shared.table.pending, u ∈ us) ∧
      ∀ t ∈ s.threads, ∀ u, t.syncSender = some u → u ∈ us)

/-- No two pending invokes have one id, and no invoke is past the gate when it
closes. -/
def ClosesBehindAll (s : State) (l : Label) : Prop :=
  l.isFresh = true ∧ (l.isPaused = true → ∀ t ∈ s.threads, t.pastGate = false)

/-! ### What a step does -/

theorem pastGate_of_passesGate {l : Label} {t : Thread} (h : l.IsOf t) (hl : l.PassesGate) :
    t.pastGate = true := by
  cases l with
  | added u isNew =>
      obtain ⟨kind, id, iTimeout, rfl⟩ := h
      rfl
  | sent u r => obtain ⟨iTimeout, rfl | rfl⟩ := h <;> rfl
  | _ => exact hl.elim

theorem next_toFinish {caller : Caller} {t : Thread} (h : t ∈ caller.next) :
    t.toFinish = caller.toFinish := by
  cases caller with
  | response => cases h
  | sender => cases h
  | pause p ids => cases ids <;> rw [List.mem_singleton.mp h] <;> rfl
  | watchdog ids => cases ids <;> rw [List.mem_singleton.mp h] <;> rfl

theorem next_pauser (caller : Caller) :
    caller.next.filterMap Thread.pauser = (caller.toFinish.map Prod.fst).toList := by
  cases caller with
  | response => rfl
  | sender => rfl
  | pause p ids => cases ids <;> rfl
  | watchdog ids => cases ids <;> rfl

theorem next_pastGate {caller : Caller} {t : Thread} (h : t ∈ caller.next) :
    t.pastGate = false := by
  rcases mem_next h with ⟨p, rfl⟩ | rfl | ⟨id, r, caller', rfl⟩ <;> rfl

/-- The gate is closed by a pause and opened by a resume. -/
theorem act_allowed {sh sh' : Shared} {choice : Choice} {t : Thread} {next : List Thread}
    {l : Label} (h : act sh choice t = some (sh', next, l)) :
    (∃ p, t = .pause p ∧ l = .paused p) ∨ (l = .resumed ∧ sh'.bProcessingAllowed = true) ∨
      sh'.bProcessingAllowed = sh.bProcessingAllowed := by
  cases t with
  | finish id r message caller =>
      simp only [act] at h
      split at h
      · next hclaim =>
          obtain ⟨op, -, -, -, heq⟩ := claim_eq_some hclaim
          cases h
          exact .inr (.inr (by rw [heq]))
      · cases h
        exact .inr (.inr rfl)
  | completeAll p =>
      obtain ⟨table, htable⟩ := completeSync_eq_setTable sh (pendingWith sh fun op => !op.bAsyncInvoke)
      cases h
      rw [htable]
      exact .inr (.inr rfl)
  | settingUp stage v iTimeout =>
      obtain rfl : _ = sh' := congrArg Prod.fst (Option.some.inj h)
      refine .inr (.inr ?_)
      cases stage <;> simp only [setUp] <;> first | rfl | split <;> rfl
  | asyncSending v iTimeout => exact .inr (.inr (by rw [(asyncSending_spec h).1]))
  | syncSending v iTimeout =>
      obtain ⟨rfl | ⟨r, rfl⟩, -, -⟩ := syncSending_spec h <;> exact .inr (.inr rfl)
  | watchdogWait armed => exact .inr (.inr (by rw [(watch_spec h).1]))
  | callingBack callback caller => cases callback <;> cases h <;> exact .inr (.inr rfl)
  | pause p =>
      cases h
      exact .inl ⟨p, rfl, rfl⟩
  | resume =>
      cases h
      exact .inr (.inl ⟨rfl, rfl⟩)
  | _ =>
      refine .inr (.inr ?_)
      grind [act, wait, completePendingOperation, Shared.modify, Shared.setTable,
        Option.map_eq_some_iff, Option.bind_eq_some_iff]

/-- No thread gets past a closed gate. -/
theorem act_window {sh sh' : Shared} {choice : Choice} {t : Thread} {next : List Thread}
    {l : Label} (h : act sh choice t = some (sh', next, l))
    (hclosed : sh.bProcessingAllowed = false) (ht : t.pastGate = false) :
    ∀ t' ∈ next, t'.pastGate = false := by
  have hnext := @next_pastGate
  cases t with
  | adding kind id iTimeout => cases ht
  | settingUp stage v iTimeout => cases ht
  | asyncSending v iTimeout => cases ht
  | syncSending v iTimeout => cases ht
  | watchdogWait armed =>
      intro t' ht'
      rcases (watch_spec h).2 t' ht' with rfl | rfl | rfl <;> rfl
  | callingBack callback caller => cases callback <;> grind [act]
  | _ =>
      grind [act, wait, completePendingOperation, Thread.pastGate, Option.map_eq_some_iff,
        Option.bind_eq_some_iff]

/-- A thread carries out the pause that the thread before it did. -/
theorem act_pauser {sh sh' : Shared} {choice : Choice} {t : Thread} {next : List Thread}
    {l : Label} (h : act sh choice t = some (sh', next, l)) :
    (next.filterMap Thread.pauser).Sublist t.pauser.toList := by
  have hnone (hnext : ∀ t' ∈ next, t'.pauser = none) :
      (next.filterMap Thread.pauser).Sublist t.pauser.toList := by
    rw [List.filterMap_eq_nil_iff.mpr hnext]
    exact List.nil_sublist _
  cases t with
  | finish id r message caller =>
      simp only [act] at h
      split at h <;> cases h
      · cases caller <;> simp [Thread.pauser]
      · rw [next_pauser]
        cases caller <;> simp [Thread.pauser, Caller.toFinish]
  | claimed u r message caller =>
      simp only [act, Option.map_eq_some_iff] at h
      obtain ⟨op, -, h⟩ := h
      cases h
      cases caller <;> simp [Thread.pauser]
  | notifying callback caller =>
      cases h
      cases caller <;> simp [Thread.pauser]
  | notified stopWatchdog callback caller =>
      cases h
      cases caller <;> simp [Thread.pauser]
  | callingBack callback caller =>
      have : next = caller.next := by cases callback <;> cases h <;> rfl
      rw [this, next_pauser]
      cases caller <;> simp [Thread.pauser, Caller.toFinish]
  | pause p =>
      cases h
      simp [Thread.pauser]
  | completeAll p =>
      cases h
      rw [next_pauser]
      simp [Thread.pauser, Caller.toFinish]
  | processTimeouts =>
      cases h
      rw [next_pauser]
      simp [Caller.toFinish]
  | watchdogWait armed =>
      refine hnone fun t' ht' => ?_
      rcases (watch_spec h).2 t' ht' with rfl | rfl | rfl <;> rfl
  | settingUp stage v iTimeout =>
      refine hnone fun t' ht' => ?_
      obtain rfl : _ = next := congrArg (·.2.1) (Option.some.inj h)
      rcases setUp_next ht' with rfl | ⟨stage', rfl⟩ | rfl <;> rfl
  | asyncSending v iTimeout =>
      refine hnone fun t' ht' => ?_
      obtain ⟨id, r, rfl⟩ := (asyncSending_spec h).2.2 t' ht'
      rfl
  | syncSending v iTimeout =>
      obtain ⟨-, -, rfl | rfl | ⟨r', rfl⟩⟩ := syncSending_spec h <;> exact List.nil_sublist _
  | _ =>
      refine hnone fun t' ht' => ?_
      clear hnone
      grind [act, wait, completePendingOperation, Thread.pauser,
        Option.map_eq_some_iff, Option.bind_eq_some_iff]

/-- Where the ids that a thread has left come from. -/
theorem act_toFinish {sh sh' : Shared} {choice : Choice} {t t' : Thread} {next : List Thread}
    {l : Label} {p : ℕ} {ids : List ℤ} (h : act sh choice t = some (sh', next, l))
    (ht' : t' ∈ next) (hids : t'.toFinish = some (p, ids)) :
    t.toFinish = some (p, ids) ∨ (t = .completeAll p ∧
      ids = idsOf sh (pendingWith sh PendingOperation.bAsyncInvoke)) ∨
      ∃ id r m, t = .finish id r m (.pause p ids) := by
  have hcaller {caller : Caller} (h : caller.toFinish = some (p, ids)) : caller = .pause p ids := by
    cases caller <;> cases h
    rfl
  cases t with
  | finish id r message caller =>
      simp only [act] at h
      split at h <;> cases h
      · rw [List.mem_singleton.mp ht'] at hids
        exact .inr (.inr ⟨id, r, message, by rw [hcaller hids]⟩)
      · rw [next_toFinish ht'] at hids
        exact .inr (.inr ⟨id, r, message, by rw [hcaller hids]⟩)
  | claimed u r message caller =>
      simp only [act, Option.map_eq_some_iff] at h
      obtain ⟨op, -, h⟩ := h
      cases h
      rw [List.mem_singleton.mp ht'] at hids
      exact .inl hids
  | notifying callback caller =>
      cases h
      rw [List.mem_singleton.mp ht'] at hids
      exact .inl hids
  | notified stopWatchdog callback caller =>
      cases h
      rw [List.mem_singleton.mp ht'] at hids
      exact .inl hids
  | callingBack callback caller =>
      obtain rfl : next = caller.next := by cases callback <;> cases h <;> rfl
      exact .inl ((next_toFinish ht').symm.trans hids)
  | completeAll p' =>
      cases h
      rw [next_toFinish ht'] at hids
      cases hids
      exact .inr (.inl ⟨rfl, rfl⟩)
  | processTimeouts =>
      cases h
      rw [next_toFinish ht'] at hids
      cases hids
  | watchdogWait armed =>
      rcases (watch_spec h).2 t' ht' with rfl | rfl | rfl <;> cases hids
  | settingUp stage v iTimeout =>
      obtain rfl : _ = next := congrArg (·.2.1) (Option.some.inj h)
      rcases setUp_next ht' with rfl | ⟨stage', rfl⟩ | rfl <;> cases hids
  | asyncSending v iTimeout =>
      obtain ⟨id, r, rfl⟩ := (asyncSending_spec h).2.2 t' ht'
      cases hids
  | syncSending v iTimeout =>
      obtain ⟨-, -, rfl | rfl | ⟨r', rfl⟩⟩ := syncSending_spec h
      · cases ht'
      · rw [List.mem_singleton.mp ht'] at hids
        cases hids
      · rw [List.mem_singleton.mp ht'] at hids
        cases hids
  | _ =>
      grind [act, wait, completePendingOperation, Thread.toFinish,
        Option.map_eq_some_iff, Option.bind_eq_some_iff]

/-! ### What remains -/

/-- Nothing that a step does while no invoke is past the gate brings an operation into
the table or changes what it is. -/
theorem Remains.act {sh sh' : Shared} {choice : Choice} {t : Thread} {next : List Thread}
    {l : Label} {us : List ℕ} {ids : List ℤ} (hr : Remains us ids sh)
    (h : PendingInvokes.act sh choice t = some (sh', next, l)) (ht : t.pastGate = false) :
    Remains us ids sh' := by
  rcases act_cases h with hq | ⟨kind, id, iTimeout, rfl, -⟩ | ⟨v, r, op, rfl, -, -, -, rfl⟩ |
    ⟨id, r, m, caller, v, rfl, hclaim, -, -⟩
  · intro u hu
    rw [hq.pending] at hu
    refine (hr u hu).imp_right fun ⟨op, hop, hasync, hid⟩ => ?_
    obtain ⟨op', hop', ⟨stage, iTimeout, rfl, -⟩ | ⟨-, hsame⟩⟩ := hq.object u op hop
    · cases ht
    · exact ⟨op', hop', hsame.2.1.trans hasync, by rwa [hsame.1]⟩
  · cases ht
  · exact fun u hu => hr u (Table.mem_removePendingOperation.mp hu).1
  · obtain ⟨op, -, -, -, rfl⟩ := claim_eq_some hclaim
    exact fun u hu => hr u (Table.mem_removePendingOperation.mp hu).1

/-- `FinishAsyncInvoke` for an id: no asynchronous operation with the id remains. -/
theorem Remains.finish {sh sh' : Shared} {choice : Choice} {id : ℤ} {r : RoseResult}
    {m : Option Message} {caller : Caller} {next : List Thread} {l : Label} {us : List ℕ}
    {ids : List ℤ} (hr : Remains us (id :: ids) sh) (hgood : sh.table.Good)
    (h : PendingInvokes.act sh choice (.finish id r m caller) = some (sh', next, l)) :
    Remains us ids sh' := by
  have hidOf {u : ℕ} {op : PendingOperation} (hop : sh.object u = some op)
      (hid : op.lInvokeID = id) : sh.table.idOf u = some id := by
    rw [Table.idOf, show sh.table.objects[u]? = some op from hop, ← hid]
    rfl
  simp only [PendingInvokes.act] at h
  split at h
  · next claimed hclaim =>
      cases h
      obtain ⟨op, -, -, -, heq⟩ := claim_eq_some hclaim
      intro u hu
      rw [heq] at hu
      obtain ⟨hu, hne⟩ := Table.mem_removePendingOperation.mp hu
      refine (hr u hu).imp_right ?_
      rintro ⟨op', hop', hasync, hid⟩
      refine ⟨op', ?_, hasync, ?_⟩
      · rw [heq]
        exact hop'
      · exact (List.mem_cons.mp hid).resolve_left fun hid => hne (hidOf hop' hid)
  · next hclaim =>
      cases h
      intro u hu
      refine (hr u hu).imp_right ?_
      rintro ⟨op, hop, hasync, hid⟩
      refine ⟨op, hop, hasync, ?_⟩
      refine (List.mem_cons.mp hid).resolve_left fun hid => ?_
      have hfind := (Table.find_eq_some hgood).mpr ⟨hu, hidOf hop hid⟩
      simp [claim, hfind, hop, hasync] at hclaim

/-- What remains when the synchronous operations are completed. -/
theorem remains_completeAll (sh : Shared) (hgood : sh.table.Good) :
    Remains (pendingWith sh fun op => !op.bAsyncInvoke)
      (idsOf sh (pendingWith sh PendingOperation.bAsyncInvoke))
      (completeSync sh (pendingWith sh fun op => !op.bAsyncInvoke)) := by
  intro u hu
  obtain ⟨hpending, -, -, hobject⟩ :=
    completeSync_quiet sh (pendingWith sh fun op => !op.bAsyncInvoke)
  rw [hpending] at hu
  obtain ⟨op, hop⟩ : ∃ op, sh.object u = some op :=
    ⟨_, List.getElem?_eq_getElem (hgood.exist u hu)⟩
  cases hasync : op.bAsyncInvoke with
  | false => exact .inl (mem_pendingWith.mpr ⟨hu, op, hop, by simp [hasync]⟩)
  | true =>
      obtain ⟨op', hop', hsame⟩ := hobject u op hop
      refine .inr ⟨op', hop', hsame.2.1.trans hasync, ?_⟩
      rw [hsame.1, idsOf, List.mem_filterMap]
      refine ⟨u, mem_pendingWith.mpr ⟨hu, op, hop, hasync⟩, ?_⟩
      rw [Table.idOf, show sh.table.objects[u]? = some op from hop]
      rfl

/-! ### The gate over a run -/

/-- What holds whether the gate is open or closed. -/
structure Guarded (s : State) : Prop where
  base : Base s
  pausers : Threads.OwnersDistinct system s
  window : s.shared.bProcessingAllowed = false → ∀ t ∈ s.threads, t.pastGate = false

/-- What holds from the step on in which a pause closes the gate. -/
structure SincePaused (p : ℕ) (after : List Label) (s : State) : Prop where
  closed : s.shared.bProcessingAllowed = false
  silent : ∀ l ∈ after, ¬ l.PassesGate
  stage : ∀ t ∈ s.threads, ∀ ids, t.toFinish = some (p, ids) →
    ∃ us, Label.completedAll p us ∈ after ∧ Remains us ids s.shared
  returned : Label.pauseReturned p ∈ after →
    ∃ us, Label.completedAll p us ∈ after ∧ Remains us [] s.shared

theorem pauser_of_toFinish {t : Thread} {p : ℕ} {ids : List ℤ} (h : t.toFinish = some (p, ids)) :
    t.pauser = some p := by
  cases t with
  | finish id r message caller =>
      cases caller <;> cases h
      rfl
  | claimed u r message caller =>
      cases caller <;> cases h
      rfl
  | notifying callback caller =>
      cases caller <;> cases h
      rfl
  | notified stopWatchdog callback caller =>
      cases caller <;> cases h
      rfl
  | callingBack callback caller =>
      cases caller <;> cases h
      rfl
  | pauseReturning p =>
      cases h
      rfl
  | _ => cases h

theorem toFinish_of_isCall {t : Thread} (h : t.isCall) : t.toFinish = none := by
  cases t with
  | issuing | response | pause | resume => rfl
  | _ => cases h

theorem guarded_init : Guarded .init :=
  ⟨base_init, by simp [Threads.OwnersDistinct, State.init], by simp [State.init]⟩

theorem Guarded.step {s s' : State} {l : Label} (h : Guarded s) (hstep : Step s l s')
    (hl : ClosesBehindAll s l) : Guarded s' := by
  refine ⟨h.base.step hstep hl.1, hstep.ownersDistinct h.pausers fun sh choice t sh' next l =>
    act_pauser, ?_⟩
  cases hstep with
  | call t hcall howner =>
      intro hclosed t' ht'
      rcases Multiset.mem_cons.mp ht' with rfl | ht'
      · cases t' <;> first | rfl | cases hcall
      · exact h.window hclosed t' ht'
  | @act sh sh' threads t next l choice hact =>
      intro hclosed
      have hwindow : (∀ t' ∈ threads, t'.pastGate = false) ∧ ∀ t' ∈ next, t'.pastGate = false := by
        rcases act_allowed hact with ⟨p, rfl, rfl⟩ | ⟨rfl, hopen⟩ | heq
        · cases hact
          exact ⟨fun t' ht' => hl.2 rfl t' (Multiset.mem_cons_of_mem ht'),
            by simp [Thread.pastGate]⟩
        · rw [hopen] at hclosed
          cases hclosed
        · have hbefore := h.window (heq.symm.trans hclosed)
          exact ⟨fun t' ht' => hbefore t' (Multiset.mem_cons_of_mem ht'),
            act_window hact (heq.symm.trans hclosed) (hbefore t (Multiset.mem_cons_self _ _))⟩
      intro t' ht'
      rcases Multiset.mem_add.mp ht' with ht' | ht'
      · exact hwindow.2 t' (Multiset.mem_coe.mp ht')
      · exact hwindow.1 t' ht'

/-- The pause closes the gate. -/
theorem Guarded.paused {s s' : State} {p : ℕ} (h : Guarded s) (hstep : Step s (.paused p) s') :
    SincePaused p [] s' := by
  generalize hl : Label.paused p = l at hstep
  cases hstep with
  | call t hcall howner => cases hl
  | @act sh sh' threads t next l choice hact =>
      subst hl
      obtain rfl : t = .pause p := label_isOf hact
      cases hact
      refine ⟨rfl, by simp, fun t' ht' ids hids => ?_, by simp⟩
      rcases Multiset.mem_add.mp ht' with ht' | ht'
      · rw [List.mem_singleton.mp (Multiset.mem_coe.mp ht')] at hids
        cases hids
      · -- no other thread carries out this pause
        have hnodup : (Multiset.filterMap Thread.pauser (.pause p ::ₘ threads)).Nodup := h.pausers
        rw [Multiset.filterMap_cons_some Thread.pauser (.pause p) threads rfl,
          Multiset.nodup_cons] at hnodup
        exact absurd ((Multiset.mem_filterMap _ _).mpr ⟨t', ht', pauser_of_toFinish hids⟩) hnodup.1

theorem SincePaused.step {s s' : State} {p : ℕ} {after : List Label} {l : Label}
    (h : SincePaused p after s) (hguard : Guarded s) (hstep : Step s l s') (hl : l ≠ .resumed) :
    SincePaused p (after ++ [l]) s' := by
  have hmem {us : List ℕ} (h : Label.completedAll p us ∈ after) :
      Label.completedAll p us ∈ after ++ [l] := List.mem_append_left _ h
  have hwindow := hguard.window h.closed
  cases hstep with
  | call t hcall howner =>
      refine ⟨h.closed, fun l' hl' => ?_, fun t' ht' ids hids => ?_, fun hret => ?_⟩
      · rcases List.mem_append.mp hl' with hl' | hl'
        · exact h.silent l' hl'
        · rw [List.mem_singleton.mp hl']
          exact id
      · rcases Multiset.mem_cons.mp ht' with rfl | ht'
        · rw [toFinish_of_isCall hcall] at hids
          cases hids
        · obtain ⟨us, hus, hr⟩ := h.stage t' ht' ids hids
          exact ⟨us, hmem hus, hr⟩
      · obtain ⟨us, hus, hr⟩ := h.returned ((List.mem_append.mp hret).resolve_right fun hret =>
          nomatch List.mem_singleton.mp hret)
        exact ⟨us, hmem hus, hr⟩
  | @act sh sh' threads t next l choice hact =>
      have ht := hwindow t (Multiset.mem_cons_self _ _)
      have hkeep {ids : List ℤ}
          (hr : ∃ us, Label.completedAll p us ∈ after ∧ Remains us ids sh) :
          ∃ us, Label.completedAll p us ∈ after ++ [l] ∧ Remains us ids sh' := by
        obtain ⟨us, hus, hr⟩ := hr
        exact ⟨us, hmem hus, hr.act hact ht⟩
      refine ⟨?_, fun l' hl' => ?_, fun t' ht' ids hids => ?_, fun hret => ?_⟩
      · rcases act_allowed hact with ⟨p', rfl, rfl⟩ | ⟨hres, -⟩ | heq
        · cases hact
          rfl
        · exact absurd hres hl
        · exact heq.trans h.closed
      · rcases List.mem_append.mp hl' with hl' | hl'
        · exact h.silent l' hl'
        · rw [List.mem_singleton.mp hl']
          intro hpass
          have := pastGate_of_passesGate (label_isOf hact) hpass
          rw [ht] at this
          cases this
      · rcases Multiset.mem_add.mp ht' with ht' | ht'
        · rcases act_toFinish hact (Multiset.mem_coe.mp ht') hids with hids | ⟨rfl, rfl⟩ |
            ⟨id, r, m, rfl⟩
          · exact hkeep (h.stage t (Multiset.mem_cons_self _ _) ids hids)
          · cases hact
            exact ⟨_, List.mem_append_right _ (List.mem_singleton_self _),
              remains_completeAll sh hguard.base.good⟩
          · obtain ⟨us, hus, hr⟩ := h.stage _ (Multiset.mem_cons_self _ _) (id :: ids) rfl
            exact ⟨us, hmem hus, @Remains.finish _ _ choice _ _ _ _ _ _ _ _ hr hguard.base.good hact⟩
        · exact hkeep (h.stage t' (Multiset.mem_cons_of_mem ht') ids hids)
      · rcases List.mem_append.mp hret with hret | hret
        · exact hkeep (h.returned hret)
        · obtain rfl := List.mem_singleton.mp hret
          obtain rfl : t = .pauseReturning p := label_isOf hact
          exact hkeep (h.stage _ (Multiset.mem_cons_self _ _) [] rfl)

theorem leaves_nothing_behind {trace : List Label} {s : State}
    (h : Transition.Run (Transition.restrict Step ClosesBehindAll) .init trace s) :
    LeavesNothingBehind trace s := by
  have hrun : Guarded s ∧ ∀ before p after, trace = before ++ .paused p :: after →
      Label.resumed ∉ after → SincePaused p after s := by
    refine @Transition.Run.invariant _ _ _ _ s trace (fun trace s => Guarded s ∧
      ∀ before p after, trace = before ++ .paused p :: after → Label.resumed ∉ after →
        SincePaused p after s) h ⟨guarded_init, by simp⟩ ?_
    rintro trace s l s' ⟨hguard, hsince⟩ ⟨hstep, hl⟩
    refine ⟨hguard.step hstep hl, fun before p after htrace hafter => ?_⟩
    rcases List.eq_nil_or_concat' after with rfl | ⟨after, l', rfl⟩
    · obtain ⟨-, rfl⟩ := List.append_inj' htrace rfl |>.imp_right List.singleton_inj.mp
      exact hguard.paused hstep
    · rw [← List.cons_append, ← List.append_assoc] at htrace
      obtain ⟨hbefore, hlast⟩ := List.append_inj' htrace rfl
      obtain rfl := List.singleton_inj.mp hlast
      simp only [List.mem_append, List.mem_singleton, not_or] at hafter
      exact (hsince before p after hbefore hafter.1).step hguard hstep (Ne.symm hafter.2)
  intro before p after htrace hafter
  obtain ⟨hguard, hsince⟩ := hrun
  have hpaused := hsince before p after htrace hafter
  refine ⟨hguard.window hpaused.closed, hpaused.silent, fun hret => ?_⟩
  obtain ⟨us, hus, hr⟩ := hpaused.returned hret
  have hpending : ∀ u ∈ s.shared.table.pending, u ∈ us := fun u hu =>
    (hr u hu).resolve_right fun ⟨op, _, _, hid⟩ => nomatch hid
  exact ⟨us, hus, hpending, fun t ht u hu => hpending u (hguard.base.sync t ht u hu).1⟩

/-- The sender of an invoke waits when the pause closes the gate, and wakes up after
the pause has returned. -/
theorem leaves_nothing_behind_waiting : LeavesNothingBehind
    [.silent, .issued 1, .silent, .added 0 true, .sent 0 (some 0), .silent, .paused 7,
      .completedAll 7 [0], .pauseReturned 7, .silent, .silent, .silent, .silent, .returned 0 2]
    ⟨⟨false, ⟨1, [⟨1, none, 2, false, false, false, false, false⟩], []⟩, 0, false, false⟩,
      ↑([] : List Thread)⟩ := by
  let choice : Choice := ⟨some 0, false, [], 0⟩
  refine leaves_nothing_behind (@Threads.run_of_playWhile _ _ _ _ system _
    (fun _ threads l => l.isFresh && (!l.isPaused || threads.all fun t => !t.pastGate)) ?_
    [.call (.issuing .sync 1000), .act 0 choice, .act 0 choice, .act 0 choice, .act 0 choice,
      .call (.pause 7), .act 0 choice, .act 0 choice, .act 0 choice, .act 0 choice, .act 0 choice,
      .act 0 choice, .act 0 choice, .act 0 choice] .init _ [] _ _ (by decide))
  intro sh threads l h
  simp only [Bool.and_eq_true, Bool.or_eq_true, Bool.not_eq_eq_eq_not, Bool.not_true,
    List.all_eq_true] at h
  refine ⟨h.1, fun hpaused t ht => ?_⟩
  exact (h.2.resolve_left (by simp [hpaused])) t (Multiset.mem_coe.mp ht)

/-- A thread has passed the gate when the pause closes it, finds nothing and returns.
Then the thread enters its invoke and sends it. -/
theorem not_leavesNothingBehind :
    ¬ ∀ (trace : List Label) (s : State), Transition.Run Step .init trace s →
      LeavesNothingBehind trace s := by
  intro h
  let choice : Choice := ⟨some 0, false, [], 0⟩
  have hplay : (Threads.play system [.call (.issuing .sync 1000), .act 0 choice, .act 0 choice,
      .call (.pause 7), .act 0 choice, .act 0 choice, .act 0 choice, .act 0 choice, .act 0 choice]
      (.init, [])).map Prod.fst =
      some ([.silent, .issued 1, .silent, .silent] ++ .paused 7 :: [.completedAll 7 [],
        .pauseReturned 7, .added 0 true, .sent 0 (some 0)]) := by
    decide
  obtain ⟨⟨trace, sh, threads⟩, hplay, htrace⟩ := Option.map_eq_some_iff.mp hplay
  have hsilent := (h trace _ (Threads.run_of_play hplay) _ _ _ htrace (by decide)).2.1
  exact hsilent (.sent 0 (some 0)) (by decide) trivial

end PendingInvokes

end Esnacc
