import Esnacc.Ts.PendingInvokes
import Esnacc.Lib.Transition

/-!
The calls of a `TSASN1Client`: what settles their promises, and that this goes right until the
counter of the invoke ids starts again.
-/

namespace Esnacc.Ts

open Transition

/-- What happens to a client. `encoded` says that the argument of a call could be encoded. -/
inductive ClientAction
  | sendInvoke (encoded rest timeout : Bool)
  | result (invokeID : ℤ)
  | error (invokedID : ℤ)
  | reject (invokedID : Option ℤ)
  | connectFailed (call : ℕ)
  | expire (call : ℕ)
  | pause
  | resume
  deriving DecidableEq, Repr

def ClientAction.isSendInvoke : ClientAction → Bool
  | .sendInvoke _ _ _ => true
  | _ => false

abbrev ClientStub := Stub Unit

namespace ClientStub

open Stub

/-- `encodeInvoke` takes an id, then `TSASN1Client.sendInvoke` runs. -/
def sendInvoke (s : ClientStub) (encoded rest timeout : Bool) : ClientStub :=
  let s := s.getNextInvokeID
  if !encoded || !s.roseProcessingAllowed then s.withoutEntry ()
  else if rest || timeout then s.withEntry () timeout
  else s.withoutEntry ()

def act (s : ClientStub) : ClientAction → ClientStub
  | .sendInvoke encoded rest timeout => sendInvoke s encoded rest timeout
  | .result invokeID => s.onROSEResult () invokeID
  | .error invokedID => s.onROSEError () invokedID
  | .reject invokedID => s.onROSEReject () invokedID
  | .connectFailed call =>
      match s.idOf call with
      | none => s
      | some id => s.take id (.unsent call)
  | .expire call => s.expire call
  | .pause => s.pauseRoseProcessing
  | .resume => s.resumeRoseProcessing

/-- A timer expires if it has not been cleared. -/
def step (s : ClientStub) (a : ClientAction) (s' : ClientStub) : Prop :=
  s' = act s a ∧ ∀ call, a = .expire call → call ∈ s.timers

end ClientStub

namespace Stub

variable {κ : Type}

/-- The call has been pending, and its promise is not settled. -/
def Outstanding (s : Stub κ) (call : ℕ) : Prop :=
  (∃ c, s.calls[call]? = some c ∧ c.pending = true) ∧ call ∉ s.settled.map Prod.fst

/-- The promise of a call is settled by an answer with the id of the call, or by what has
happened to this very call, or by a shutdown. -/
def Own (s : Stub κ) (call : ℕ) : Cause κ → Prop
  | .answer _ _ invokeID => s.idOf call = some invokeID
  | .unsent call' | .timeout call' => call' = call
  | .shutdown => True

/-- The promises are settled as they should. -/
structure Sound (s : Stub κ) : Prop where
  ids : ∀ c ∈ s.calls, c.id ≠ 0 ∧ c.id ≠ 99999
  distinct : ∀ call call', s.Outstanding call → s.Outstanding call' →
    s.idOf call = s.idOf call' → call = call'
  once : (s.settled.map Prod.fst).Nodup
  own : ∀ e ∈ s.settled, s.Own e.1 e.2
  waiting : ∀ call, s.Outstanding call →
    ∃ id p, s.idOf call = some id ∧ s.pendingInvokes.get id = some p ∧ p.call = call

/-! ### Ids -/

/-- The counter and the ids go by the number of the calls. -/
structure Numbered (s : Stub κ) : Prop where
  counter : s.invokeCounter = s.calls.length % 99999
  ids : ∀ call, s.idOf call =
    if call < s.calls.length then some (((call : ℤ) + 1) % 99999) else none

theorem numbered_init : (init : Stub κ).Numbered := ⟨rfl, fun _ => rfl⟩

theorem Numbered.of_calls {s s' : Stub κ} (h : s.Numbered) (hcalls : s'.calls = s.calls)
    (hcounter : s'.invokeCounter = s.invokeCounter) : s'.Numbered := by
  refine ⟨by rw [hcounter, hcalls, h.counter], fun call => ?_⟩
  have hids := h.ids call
  rw [idOf] at hids ⊢
  rw [hcalls, hids]

/-- A new call gets the next id. -/
theorem Numbered.snoc {s s' : Stub κ} (h : s.Numbered) {c : Call κ}
    (hcalls : s'.calls = s.calls ++ [c])
    (hcounter : s'.invokeCounter = s.getNextInvokeID.invokeCounter)
    (hid : c.id = s.getNextInvokeID.invokeCounter) : s'.Numbered := by
  have hnext : s.getNextInvokeID.invokeCounter = ((s.calls.length : ℤ) + 1) % 99999 := by
    simp only [getNextInvokeID, h.counter]
    split <;> omega
  constructor
  · rw [hcounter, hnext, hcalls, List.length_append, List.length_singleton]
    push_cast
    rfl
  · intro call
    have hids := h.ids call
    rw [idOf] at hids ⊢
    rw [hcalls, List.length_append, List.length_singleton]
    rcases Nat.lt_trichotomy call s.calls.length with hlt | rfl | hgt
    · rw [List.getElem?_append_left hlt, hids, if_pos hlt, if_pos (by omega)]
    · rw [List.getElem?_concat_length, Option.map_some, hid, hnext, if_pos (by omega)]
    · rw [List.getElem?_eq_none (by rw [List.length_append, List.length_singleton]; omega),
        if_neg (by omega)]
      rfl

section Frames

variable (s : Stub κ)

@[simp] theorem calls_complete (p : PendingInvoke) (cause : Cause κ) :
    (s.complete p cause).calls = s.calls := rfl

@[simp] theorem invokeCounter_complete (p : PendingInvoke) (cause : Cause κ) :
    (s.complete p cause).invokeCounter = s.invokeCounter := rfl

@[simp] theorem calls_take (id : ℤ) (cause : Cause κ) : (s.take id cause).calls = s.calls := by
  rw [take]
  split <;> rfl

@[simp] theorem invokeCounter_take (id : ℤ) (cause : Cause κ) :
    (s.take id cause).invokeCounter = s.invokeCounter := by
  rw [take]
  split <;> rfl

@[simp] theorem calls_expire (call : ℕ) : (s.expire call).calls = s.calls := by
  rw [expire]
  split
  · rfl
  · rw [onROSETimeout]
    split
    · rfl
    · dsimp only
      split <;> rfl

@[simp] theorem invokeCounter_expire (call : ℕ) :
    (s.expire call).invokeCounter = s.invokeCounter := by
  rw [expire]
  split
  · rfl
  · rw [onROSETimeout]
    split
    · rfl
    · dsimp only
      split <;> rfl

/-- What completing one entry after the other comes to. -/
theorem foldl_complete (m : PendingInvokes) :
    (m.foldl (fun s e => s.complete e.2 .shutdown) s).settled =
        s.settled ++ m.map (fun e => (e.2.call, .shutdown)) ∧
      (m.foldl (fun s e => s.complete e.2 .shutdown) s).calls = s.calls ∧
      (m.foldl (fun s e => s.complete e.2 .shutdown) s).invokeCounter = s.invokeCounter ∧
      ∀ call ∈ (m.foldl (fun s e => s.complete e.2 .shutdown) s).timers, call ∈ s.timers ∧
        ∀ e ∈ m, e.2 ≠ ⟨call, true⟩ := by
  induction m generalizing s with
  | nil => exact ⟨by simp, rfl, rfl, fun call hcall => ⟨hcall, by simp⟩⟩
  | cons e m ih =>
      obtain ⟨hsettled, hcalls, hcounter, htimers⟩ := ih (s.complete e.2 .shutdown)
      rw [List.foldl_cons]
      refine ⟨?_, hcalls, hcounter, fun call hcall => ?_⟩
      · rw [hsettled, complete, List.map_cons, List.append_assoc, List.singleton_append]
      · obtain ⟨htimer, hrest⟩ := htimers call hcall
        simp only [complete] at htimer
        split at htimer
        · next ht =>
            rw [List.mem_filter, decide_eq_true_eq] at htimer
            refine ⟨htimer.1, List.forall_mem_cons.2 ⟨fun heq => htimer.2 ?_, hrest⟩⟩
            rw [heq]
        · next ht =>
            refine ⟨htimer, List.forall_mem_cons.2 ⟨fun heq => ht ?_, hrest⟩⟩
            rw [heq]

end Frames

/-! ### The invariant -/

/-- What holds as long as the counter has not started again: the entries stand under the ids of
their calls, which are all different. -/
structure Inv (s : Stub κ) : Prop where
  keys : (s.pendingInvokes.map Prod.fst).Nodup
  entries : ∀ e ∈ s.pendingInvokes, e.1 = (e.2.call : ℤ) + 1 ∧ s.Outstanding e.2.call
  timers : ∀ call ∈ s.timers, ((call : ℤ) + 1, ⟨call, true⟩) ∈ s.pendingInvokes
  once : (s.settled.map Prod.fst).Nodup
  own : ∀ e ∈ s.settled, e.1 < s.calls.length ∧ s.Own e.1 e.2
  waiting : ∀ call, s.Outstanding call → ∃ e ∈ s.pendingInvokes, e.2.call = call

theorem inv_init : (init : Stub κ).Inv where
  keys := List.nodup_nil
  entries := by simp [init]
  timers := by simp [init]
  once := List.nodup_nil
  own := by simp [init]
  waiting := by simp [init, Outstanding]

theorem idOf_of_lt {s : Stub κ} (h : s.Numbered) (hlen : s.calls.length ≤ 99998) {call : ℕ}
    (hcall : call < s.calls.length) : s.idOf call = some ((call : ℤ) + 1) := by
  rw [h.ids, if_pos hcall]
  congr 1
  omega

theorem Outstanding.lt {s : Stub κ} {call : ℕ} (h : s.Outstanding call) :
    call < s.calls.length := by
  obtain ⟨⟨c, hc, -⟩, -⟩ := h
  exact (List.getElem?_eq_some_iff.1 hc).1

/-- The promise of a pending call is settled: its entry and its timer are gone. -/
theorem Inv.settle {s : Stub κ} (h : s.Inv) {e : ℤ × PendingInvoke} (he : e ∈ s.pendingInvokes)
    {cause : Cause κ} (hown : s.Own e.2.call cause) :
    Inv ({ s with pendingInvokes := s.pendingInvokes.delete e.1 }.complete e.2 cause) := by
  have hout := (h.entries e he).2
  have hlater (call : ℕ) (hne : call ≠ e.2.call) :
      Outstanding ({ s with pendingInvokes := s.pendingInvokes.delete e.1 }.complete e.2 cause)
        call ↔ s.Outstanding call := by
    simp [Outstanding, complete, hne]
  have hdone : ¬Outstanding
      ({ s with pendingInvokes := s.pendingInvokes.delete e.1 }.complete e.2 cause) e.2.call := by
    simp [Outstanding, complete]
  constructor
  case keys => exact PendingInvokes.nodup_delete h.keys _
  case entries =>
    intro e' he'
    obtain ⟨hmem, hkey⟩ := PendingInvokes.mem_delete.1 he'
    obtain ⟨hid, hout'⟩ := h.entries e' hmem
    refine ⟨hid, (hlater _ fun hcall => hkey ?_).2 hout'⟩
    rw [hid, hcall, (h.entries e he).1]
  case timers =>
    intro call hcall
    have htimer : call ∈ s.timers ∧ (e.2.timerID = true → call ≠ e.2.call) := by
      simp only [complete] at hcall
      split at hcall
      · rw [List.mem_filter, decide_eq_true_eq] at hcall
        exact ⟨hcall.1, fun _ => hcall.2⟩
      · next hno => exact ⟨hcall, fun hyes => absurd hyes hno⟩
    have hmem := h.timers call htimer.1
    refine PendingInvokes.mem_delete.2 ⟨hmem, fun hkey => ?_⟩
    have heq := PendingInvokes.eq_of_key h.keys hmem he hkey
    refine htimer.2 ?_ ?_
    · rw [← heq]
    · rw [← heq]
  case once =>
    simp only [complete, List.map_append, List.map_singleton]
    rw [List.nodup_append]
    refine ⟨h.once, List.nodup_singleton _, ?_⟩
    intro call hcall call' hcall' heq
    rw [List.mem_singleton] at hcall'
    exact hout.2 (hcall' ▸ heq ▸ hcall)
  case own =>
    intro e' he'
    rcases List.mem_append.1 he' with he' | he'
    · exact h.own e' he'
    · rw [List.mem_singleton.1 he']
      exact ⟨hout.lt, hown⟩
  case waiting =>
    intro call hcall
    by_cases heq : call = e.2.call
    · exact absurd (heq ▸ hcall) hdone
    · obtain ⟨e', he', rfl⟩ := h.waiting call ((hlater call heq).1 hcall)
      refine ⟨e', PendingInvokes.mem_delete.2 ⟨he', fun hkey => heq ?_⟩, rfl⟩
      rw [PendingInvokes.eq_of_key h.keys he' he hkey]

theorem Inv.take {s : Stub κ} (h : s.Inv) {id : ℤ} {cause : Cause κ}
    (hown : ∀ call, s.Outstanding call → id = (call : ℤ) + 1 → s.Own call cause) :
    (s.take id cause).Inv := by
  rw [Stub.take]
  split
  · exact h
  · next p hget =>
      have hmem := PendingInvokes.mem_of_get hget
      obtain ⟨hid, hout⟩ := h.entries _ hmem
      exact h.settle hmem (hown p.call hout hid)

/-- A timer that is no longer active. -/
theorem Inv.filterTimers {s : Stub κ} (h : s.Inv) (call : ℕ) :
    Inv { s with timers := s.timers.filter (· ≠ call) } where
  keys := h.keys
  entries := h.entries
  timers := fun call' hcall' => h.timers call' (List.mem_filter.1 hcall').1
  once := h.once
  own := h.own
  waiting := h.waiting

theorem Inv.expire {s : Stub κ} (h : s.Inv) (hnum : s.Numbered) (hlen : s.calls.length ≤ 99998)
    {call : ℕ} (hcall : call ∈ s.timers) : (s.expire call).Inv := by
  have hmem := h.timers call hcall
  have hlt := (h.entries _ hmem).2.lt
  rw [Stub.expire, idOf_of_lt hnum hlen hlt]
  dsimp only
  rw [onROSETimeout]
  dsimp only
  rw [PendingInvokes.get_of_mem h.keys hmem]
  dsimp only
  rw [if_pos rfl]
  exact (h.filterTimers call).settle hmem rfl

theorem Inv.pause {s : Stub κ} (h : s.Inv) : s.pauseRoseProcessing.Inv := by
  obtain ⟨hsettled, hcalls, -, htimers⟩ :=
    foldl_complete { s with roseProcessingAllowed := false } s.pendingInvokes
  dsimp only at hsettled hcalls htimers
  have hcall : (s.pendingInvokes.map fun e => e.2.call).Nodup := by
    have hkeys : s.pendingInvokes.map Prod.fst =
        (s.pendingInvokes.map fun e => e.2.call).map fun call : ℕ => (call : ℤ) + 1 := by
      rw [List.map_map]
      exact List.map_congr_left fun e he => (h.entries e he).1
    have hnodup := h.keys
    rw [hkeys] at hnodup
    exact hnodup.of_map _
  rw [pauseRoseProcessing, completeAllPendingOperations]
  constructor
  case keys => exact List.nodup_nil
  case entries => simp
  case timers =>
    intro call hcall'
    obtain ⟨htimer, hne⟩ := htimers call hcall'
    exact absurd rfl (hne _ (h.timers call htimer))
  case once =>
    dsimp only
    rw [hsettled, List.map_append, List.map_map, List.nodup_append]
    refine ⟨h.once, hcall, ?_⟩
    intro call hmem call' hmem' heq
    obtain ⟨e, he, rfl⟩ := List.mem_map.1 hmem'
    change call = e.2.call at heq
    exact (h.entries e he).2.2 (heq ▸ hmem)
  case own =>
    intro e he
    dsimp only at he ⊢
    rw [hsettled] at he
    rw [hcalls]
    rcases List.mem_append.1 he with he | he
    · refine ⟨(h.own e he).1, ?_⟩
      have hown := (h.own e he).2
      rcases e with ⟨call, cause⟩
      cases cause with
      | answer source kind id => simpa [Own, idOf, hcalls] using hown
      | unsent call' | timeout call' => exact hown
      | shutdown => trivial
    · obtain ⟨e', he', rfl⟩ := List.mem_map.1 he
      exact ⟨(h.entries e' he').2.lt, trivial⟩
  case waiting =>
    rintro call ⟨hpending, hnot⟩
    dsimp only at hpending hnot
    rw [hcalls] at hpending
    rw [hsettled, List.map_append, List.mem_append, not_or] at hnot
    obtain ⟨e, he, rfl⟩ := h.waiting call ⟨hpending, hnot.1⟩
    refine absurd ?_ hnot.2
    rw [List.map_map]
    exact List.mem_map.2 ⟨e, he, rfl⟩

/-- The calls before are as they were when a call is added. -/
theorem outstanding_snoc {s : Stub κ} (h : s.Inv) (c : Call κ) {s' : Stub κ}
    (hcalls : s'.calls = s.calls ++ [c]) (hsettled : s'.settled = s.settled) (call : ℕ) :
    s'.Outstanding call ↔
      s.Outstanding call ∨ call = s.calls.length ∧ c.pending = true := by
  rw [Outstanding, Outstanding, hcalls, hsettled]
  rcases Nat.lt_trichotomy call s.calls.length with hlt | rfl | hgt
  · rw [List.getElem?_append_left hlt]
    constructor
    · exact .inl
    · rintro (h' | ⟨rfl, -⟩)
      · exact h'
      · omega
  · have hnew : s.calls.length ∉ s.settled.map Prod.fst := by
      intro hmem
      obtain ⟨e, he, heq⟩ := List.mem_map.1 hmem
      have hlt := (h.own e he).1
      omega
    simp [hnew]
  · rw [List.getElem?_eq_none (by rw [List.length_append, List.length_singleton]; omega)]
    have hnone : s.calls[call]? = none := List.getElem?_eq_none hgt.le
    simp [hnone, hgt.ne']

theorem Own.snoc {s s' : Stub κ} {c : Call κ} (hcalls : s'.calls = s.calls ++ [c]) {call : ℕ}
    (hlt : call < s.calls.length) {cause : Cause κ} (h : s.Own call cause) :
    s'.Own call cause := by
  cases cause with
  | answer source kind id =>
      rw [Own, idOf] at h ⊢
      rw [hcalls, List.getElem?_append_left hlt]
      exact h
  | unsent call' => exact h
  | timeout call' => exact h
  | shutdown => trivial

theorem Inv.withoutEntry {s : Stub κ} (h : s.Inv) (target : κ) :
    (s.getNextInvokeID.withoutEntry target).Inv := by
  have hout := @outstanding_snoc κ s h ⟨s.getNextInvokeID.invokeCounter, target, false⟩
    (s.getNextInvokeID.withoutEntry target) rfl rfl
  constructor
  case keys => exact h.keys
  case entries => exact fun e he => ⟨(h.entries e he).1, (hout _).2 (.inl (h.entries e he).2)⟩
  case timers => exact h.timers
  case once => exact h.once
  case own =>
    intro e he
    obtain ⟨hlt, hown⟩ := h.own e he
    exact ⟨by simp [Stub.withoutEntry, getNextInvokeID]; omega, hown.snoc rfl hlt⟩
  case waiting =>
    intro call hcall
    rcases (hout call).1 hcall with hcall | ⟨-, hfalse⟩
    · exact h.waiting call hcall
    · cases hfalse

/-- The id of a new entry is not in the map yet. -/
theorem Inv.withEntry {s : Stub κ} (h : s.Inv) (target : κ) (timer : Bool)
    (hid : s.getNextInvokeID.invokeCounter = (s.calls.length : ℤ) + 1) :
    (s.getNextInvokeID.withEntry target timer).Inv := by
  have hout := @outstanding_snoc κ s h ⟨s.getNextInvokeID.invokeCounter, target, true⟩
    (s.getNextInvokeID.withEntry target timer) rfl rfl
  have hkey (e : ℤ × PendingInvoke) (he : e ∈ s.pendingInvokes) :
      e.1 ≠ s.getNextInvokeID.invokeCounter := by
    obtain ⟨hkey, hpending⟩ := h.entries e he
    have hlt := hpending.lt
    rw [hkey, hid]
    omega
  have hmem (e : ℤ × PendingInvoke) :
      e ∈ (s.getNextInvokeID.withEntry target timer).pendingInvokes ↔
        e ∈ s.pendingInvokes ∨ e = ((s.calls.length : ℤ) + 1, ⟨s.calls.length, timer⟩) := by
    rw [← hid]
    refine PendingInvokes.mem_set.trans (or_congr_left ⟨And.left, fun he => ⟨he, hkey e he⟩⟩)
  constructor
  case keys => exact PendingInvokes.nodup_set h.keys _ _
  case entries =>
    intro e he
    rcases (hmem e).1 he with he | rfl
    · exact ⟨(h.entries e he).1, (hout _).2 (.inl (h.entries e he).2)⟩
    · exact ⟨rfl, (hout _).2 (.inr ⟨rfl, rfl⟩)⟩
  case timers =>
    intro call hcall
    rw [hmem]
    simp only [Stub.withEntry, getNextInvokeID] at hcall
    split at hcall
    · next htimer =>
        rcases List.mem_append.1 hcall with hcall | hcall
        · exact .inl (h.timers call hcall)
        · rw [List.mem_singleton.1 hcall, htimer]
          exact .inr rfl
    · exact .inl (h.timers call hcall)
  case once => exact h.once
  case own =>
    intro e he
    obtain ⟨hlt, hown⟩ := h.own e he
    exact ⟨by simp [Stub.withEntry, getNextInvokeID]; omega, hown.snoc rfl hlt⟩
  case waiting =>
    intro call hcall
    rcases (hout call).1 hcall with hcall | ⟨rfl, -⟩
    · obtain ⟨e, he, hcall'⟩ := h.waiting call hcall
      exact ⟨e, (hmem e).2 (.inl he), hcall'⟩
    · exact ⟨_, (hmem _).2 (.inr rfl), rfl⟩

/-- The invariant is what is needed. -/
theorem Inv.sound {s : Stub κ} (h : s.Inv) (hnum : s.Numbered) (hlen : s.calls.length ≤ 99998) :
    s.Sound := by
  have hid {call : ℕ} (hcall : call < s.calls.length) := idOf_of_lt hnum hlen hcall
  constructor
  case ids =>
    intro c hc
    obtain ⟨call, hlt, rfl⟩ := List.mem_iff_getElem.1 hc
    have hcall := hid hlt
    rw [idOf, List.getElem?_eq_getElem hlt, Option.map_some, Option.some.injEq] at hcall
    rw [hcall]
    omega
  case distinct =>
    intro call call' hcall hcall' heq
    rw [hid hcall.lt, hid hcall'.lt, Option.some.injEq] at heq
    omega
  case once => exact h.once
  case own => exact fun e he => (h.own e he).2
  case waiting =>
    intro call hcall
    obtain ⟨e, he, rfl⟩ := h.waiting call hcall
    refine ⟨e.1, e.2, ?_, PendingInvokes.get_of_mem h.keys he, rfl⟩
    rw [hid hcall.lt, (h.entries e he).1]

end Stub

namespace ClientStub

open Stub

/-- A call goes into the list with its id, whatever becomes of it. -/
theorem sendInvoke_cases (s : ClientStub) (encoded rest timeout : Bool) :
    sendInvoke s encoded rest timeout = s.getNextInvokeID.withoutEntry () ∨
      sendInvoke s encoded rest timeout = s.getNextInvokeID.withEntry () timeout := by
  rw [sendInvoke]
  split
  · exact .inl rfl
  · split
    · exact .inr rfl
    · exact .inl rfl

/-- Only `sendInvoke` touches the calls and the counter. -/
theorem frame_act (s : ClientStub) {a : ClientAction} (ha : a.isSendInvoke = false) :
    (act s a).calls = s.calls ∧ (act s a).invokeCounter = s.invokeCounter := by
  cases a with
  | sendInvoke encoded rest timeout => cases ha
  | result id => simp [act, onROSEResult]
  | error id => simp [act, onROSEError]
  | reject id => cases id <;> simp [act, onROSEReject]
  | connectFailed call =>
      simp only [act]
      split <;> simp
  | expire call => simp [act]
  | pause => simp [act, pauseRoseProcessing, completeAllPendingOperations, foldl_complete]
  | resume => exact ⟨rfl, rfl⟩

theorem numbered_act {s : ClientStub} (h : s.Numbered) (a : ClientAction) :
    (act s a).Numbered := by
  cases ha : a.isSendInvoke with
  | false => exact h.of_calls (frame_act s ha).1 (frame_act s ha).2
  | true =>
      cases a with
      | sendInvoke encoded rest timeout =>
          change (sendInvoke s encoded rest timeout).Numbered
          rcases sendInvoke_cases s encoded rest timeout with heq | heq
          · exact h.snoc (c := ⟨s.getNextInvokeID.invokeCounter, (), false⟩) (by rw [heq]; rfl)
              (by rw [heq]; rfl) rfl
          · exact h.snoc (c := ⟨s.getNextInvokeID.invokeCounter, (), true⟩) (by rw [heq]; rfl)
              (by rw [heq]; rfl) rfl
      | result | error | reject | connectFailed | expire | pause | resume => cases ha

theorem length_calls_act (s : ClientStub) (a : ClientAction) :
    (act s a).calls.length = s.calls.length + if a.isSendInvoke then 1 else 0 := by
  cases ha : a.isSendInvoke with
  | false => simp [(frame_act s ha).1]
  | true =>
      cases a with
      | sendInvoke encoded rest timeout =>
          change (sendInvoke s encoded rest timeout).calls.length = _
          rcases sendInvoke_cases s encoded rest timeout with heq | heq <;>
            simp [heq, Stub.withEntry, Stub.withoutEntry, getNextInvokeID]
      | result | error | reject | connectFailed | expire | pause | resume => cases ha

/-- One step keeps the invariant, as long as the ids last. -/
theorem inv_act {s : ClientStub} {a : ClientAction} (h : s.Inv) (hnum : s.Numbered)
    (hlen : (act s a).calls.length ≤ 99998) (htimer : ∀ call, a = .expire call → call ∈ s.timers) :
    (act s a).Inv := by
  have hlen' : s.calls.length ≤ 99998 := by
    rw [length_calls_act] at hlen
    omega
  have hanswer {id : ℤ} {kind : Answer} : (s.take id (.answer () kind id)).Inv :=
    h.take fun call hout hid => by rw [Own, idOf_of_lt hnum hlen' hout.lt, hid]
  cases a with
  | sendInvoke encoded rest timeout =>
      change (sendInvoke s encoded rest timeout).Inv
      rcases sendInvoke_cases s encoded rest timeout with heq | heq
      · rw [heq]
        exact h.withoutEntry ()
      · rw [heq]
        refine h.withEntry () timeout ?_
        rw [length_calls_act, show ClientAction.isSendInvoke (.sendInvoke encoded rest timeout) =
          true from rfl, if_pos rfl] at hlen
        simp only [getNextInvokeID, hnum.counter]
        split <;> omega
  | result id => exact hanswer
  | error id => exact hanswer
  | reject id =>
      cases id with
      | none => exact h
      | some id => exact hanswer
  | connectFailed call =>
      simp only [act]
      split
      · exact h
      · next id hid =>
          refine h.take fun call' hout heq => ?_
          rw [hnum.ids] at hid
          split at hid
          · rw [Option.some.injEq] at hid
            change call = call'
            omega
          · cases hid
  | expire call => exact h.expire hnum hlen' (htimer call rfl)
  | pause => exact h.pause
  | resume => exact ⟨h.keys, h.entries, h.timers, h.once, h.own, h.waiting⟩

/-- What is known of every state that is reached. -/
theorem inv_of_run {trace : List ClientAction} {s : ClientStub} (h : Run step init trace s) :
    s.Numbered ∧ s.calls.length = trace.countP ClientAction.isSendInvoke ∧
      (s.calls.length ≤ 99998 → s.Inv) := by
  refine h.invariant (P := fun trace s => s.Numbered ∧
    s.calls.length = trace.countP ClientAction.isSendInvoke ∧
      (s.calls.length ≤ 99998 → s.Inv)) ⟨numbered_init, rfl, fun _ => inv_init⟩ ?_
  rintro trace s a s' ⟨hnum, hcount, hinv⟩ ⟨rfl, htimer⟩
  have hlength := length_calls_act s a
  refine ⟨numbered_act hnum a, ?_, fun hlen => inv_act (hinv ?_) hnum hlen htimer⟩
  · rw [hlength, hcount, List.countP_append, List.countP_singleton]
  · omega

/-- The id behind 99998 is 0. -/
theorem not_sound_of_many {s : ClientStub} (h : s.Numbered) (hlen : 99998 < s.calls.length) :
    ¬s.Sound := by
  intro hsound
  have hid := h.ids 99998
  rw [if_pos hlen, idOf, Option.map_eq_some_iff] at hid
  obtain ⟨c, hc, hzero⟩ := hid
  refine (hsound.ids c (List.mem_of_getElem? hc)).1 ?_
  rw [hzero]
  rfl

theorem run_calls (n : ℕ) : ∃ s : ClientStub,
    Run step init (List.replicate n (.sendInvoke true false true)) s := by
  induction n with
  | zero => exact ⟨init, .nil⟩
  | succ n ih =>
      obtain ⟨s, hs⟩ := ih
      rw [List.replicate_succ']
      exact ⟨_, .snoc hs ⟨rfl, by simp⟩⟩

end ClientStub

end Esnacc.Ts
