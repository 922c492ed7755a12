import Esnacc.Ts.Receive
import Esnacc.Ts.ServerInvokes

/-!
What is left of a call when its promise is settled: the entry of the map and the timer are made
before the steps that can fail, and each of the ways a call can end has to take them away again.
A client and a server share the class that has the map, so that one state has the calls of both.
-/

namespace Esnacc.Ts

open Transition

inductive EASNCONNECTIONMODE
  | UNKNOWN
  | WEBSOCKET
  | REST
  | TCP
  deriving DecidableEq, Repr

/-- What `sendInvoke` is called with, as far as the map goes; `timeout` says that the timeout of
the context, or else the default, is not zero. -/
structure InvokeData where
  invokeID : ℤ
  timeout : Bool
  deriving DecidableEq, Repr

/-- `connectionMode` is the one that is chosen for the call. The sending of a server throws in
`encodeToTransport`, `logTransport` or `send`, or `send` returns false. -/
inductive CallAction
  | clientInvoke (data : InvokeData) (connectionMode : EASNCONNECTIONMODE)
  | serverInvoke (data : InvokeData) (reachable : Bool) (sending : Sending)
  | failed (call : ℕ)
  | result (invokeID : ℤ)
  | error (invokedID : ℤ)
  | reject (invokedID : Option ℤ)
  | expire (call : ℕ)
  | pause
  | resume
  deriving DecidableEq, Repr

namespace Stub

section

variable (s : Stub Unit)

/-- `pendingInvokes.set(id, pending)`, and the timer. -/
def enter (id : ℤ) (timer : Bool) : Stub Unit :=
  { s with
    pendingInvokes := s.pendingInvokes.set id ⟨s.calls.length, timer⟩
    timers := if timer then s.timers ++ [s.calls.length] else s.timers
    calls := s.calls ++ [⟨id, (), true⟩] }

/-- A promise that is settled at once. -/
def atOnce (id : ℤ) : Stub Unit := { s with calls := s.calls ++ [⟨id, (), false⟩] }

/-- The promise of a call is settled behind the back of its entry. -/
def settlePast (call : ℕ) : Stub Unit :=
  { s with settled := s.settled ++ [(call, .unsent call)] }

/-- A client makes an entry for an invoke with a timer, and for REST. -/
def makesEntry (data : InvokeData) (connectionMode : EASNCONNECTIONMODE) : Bool :=
  data.invokeID ≠ eventInvokeID ∧ (connectionMode = .REST ∨ data.timeout = true)

/-- `TSASN1Client.sendInvoke`. The sending itself comes later, and what goes wrong there is an
action of its own; for an unknown connection mode the executor throws. -/
def clientSendInvoke (data : InvokeData) (connectionMode : EASNCONNECTIONMODE) : Stub Unit :=
  if !s.roseProcessingAllowed then s.atOnce data.invokeID
  else if makesEntry data connectionMode then
    if connectionMode = .UNKNOWN then
      (s.enter data.invokeID data.timeout).settlePast s.calls.length
    else s.enter data.invokeID data.timeout
  else s.atOnce data.invokeID

/-- `TSASN1Server.sendInvoke`: `reachable` says that there are a session, a connection handler and
a client. Every invoke gets a timer. -/
def serverSendInvoke (data : InvokeData) (reachable : Bool) (sending : Sending) : Stub Unit :=
  if !s.roseProcessingAllowed || !reachable then s.atOnce data.invokeID
  else if data.invokeID ≠ eventInvokeID then
    let entered := s.enter data.invokeID true
    match sending with
    | .throws => entered.settlePast s.calls.length
    | .failed => entered.take data.invokeID (.unsent s.calls.length)
    | .sent => entered
  else
    match sending with
    | .failed => (s.atOnce data.invokeID).take data.invokeID (.unsent s.calls.length)
    | .throws | .sent => s.atOnce data.invokeID

/-- `failed` is the `catch` of `sendStatefull`, `handleFetch` or `sendStateLess`. -/
def act : CallAction → Stub Unit
  | .clientInvoke data connectionMode => s.clientSendInvoke data connectionMode
  | .serverInvoke data reachable sending => s.serverSendInvoke data reachable sending
  | .failed call =>
      match s.idOf call with
      | none => s
      | some id => s.take id (.unsent call)
  | .result invokeID => s.onROSEResult () invokeID
  | .error invokedID => s.onROSEError () invokedID
  | .reject invokedID => s.onROSEReject () invokedID
  | .expire call => s.expire call
  | .pause => s.pauseRoseProcessing
  | .resume => s.resumeRoseProcessing

/-- A timer expires if it has not been cleared. -/
def step (a : CallAction) (s' : Stub Unit) : Prop :=
  s' = s.act a ∧ ∀ call, a = .expire call → call ∈ s.timers

/-- The promise of the call is settled. -/
def Settled (call : ℕ) : Prop :=
  call ∈ s.settled.map Prod.fst ∨ ∃ c, s.calls[call]? = some c ∧ c.pending = false

/-- A call whose promise is settled has no entry and no timer. -/
def Clean : Prop :=
  ∀ call, s.Settled call → (∀ e ∈ s.pendingInvokes, e.2.call ≠ call) ∧ call ∉ s.timers

/-- The call fails before `sendInvoke` returns. -/
def FailsAtOnce : CallAction → Prop
  | .clientInvoke _ connectionMode => s.roseProcessingAllowed = false ∨ connectionMode = .UNKNOWN
  | .serverInvoke _ reachable sending =>
      s.roseProcessingAllowed = false ∨ reachable = false ∨ sending ≠ .sent
  | _ => False

/-- No exception comes after the entry has been made, and no entry is lost that had the id before
a `send` returned false. -/
def Allowed : CallAction → Prop
  | .clientInvoke data connectionMode =>
      s.roseProcessingAllowed = true → makesEntry data connectionMode = true →
        connectionMode ≠ .UNKNOWN
  | .serverInvoke data reachable sending =>
      s.roseProcessingAllowed = true → reachable = true → data.invokeID ≠ eventInvokeID →
        sending ≠ .throws ∧
          (sending = .failed → s.pendingInvokes.get data.invokeID = none)
  | _ => True

/-- What a step should do: what is settled has nothing left, and a call that fails at once leaves
the map as it was. -/
def StepsCleanly (a : CallAction) (s' : Stub Unit) : Prop :=
  s'.Clean ∧ (s.FailsAtOnce a → s'.pendingInvokes = s.pendingInvokes)

end

/-- The entries stand under the ids of their calls. -/
structure Filed (s : Stub Unit) : Prop where
  keys : (s.pendingInvokes.map Prod.fst).Nodup
  ids : ∀ e ∈ s.pendingInvokes, ∃ c, s.calls[e.2.call]? = some c ∧ c.id = e.1

theorem Filed.call_lt {s : Stub Unit} (h : s.Filed) {e : ℤ × PendingInvoke}
    (he : e ∈ s.pendingInvokes) : e.2.call < s.calls.length := by
  obtain ⟨c, hc, -⟩ := h.ids e he
  exact (List.getElem?_eq_some_iff.mp hc).1

/-- Different entries belong to different calls. -/
theorem Filed.call_ne {s : Stub Unit} (h : s.Filed) {e e' : ℤ × PendingInvoke}
    (he : e ∈ s.pendingInvokes) (he' : e' ∈ s.pendingInvokes) (hne : e'.1 ≠ e.1) :
    e'.2.call ≠ e.2.call := by
  obtain ⟨c, hc, hid⟩ := h.ids e he
  obtain ⟨c', hc', hid'⟩ := h.ids e' he'
  intro hcall
  rw [hcall, hc] at hc'
  exact hne (by rw [← hid, ← hid', Option.some.inj hc'])

theorem Filed.of_delete {s s' : Stub Unit} (h : s.Filed) {id : ℤ}
    (hmap : s'.pendingInvokes = s.pendingInvokes.delete id) (hcalls : s'.calls = s.calls) :
    s'.Filed := by
  refine ⟨?_, fun e he => ?_⟩
  · rw [hmap]
    exact PendingInvokes.nodup_delete h.keys id
  · rw [hmap] at he
    rw [hcalls]
    exact h.ids e (PendingInvokes.mem_delete.mp he).1

theorem Filed.of_calls {s s' : Stub Unit} (h : s.Filed)
    (hmap : s'.pendingInvokes = s.pendingInvokes) (hcalls : s'.calls = s.calls) : s'.Filed := by
  refine ⟨?_, fun e he => ?_⟩
  · rw [hmap]
    exact h.keys
  · rw [hmap] at he
    rw [hcalls]
    exact h.ids e he

theorem Filed.take {s : Stub Unit} (h : s.Filed) (id : ℤ) (cause : Cause Unit) :
    (s.take id cause).Filed := by
  rw [Stub.take]
  cases hget : s.pendingInvokes.get id with
  | none => exact h
  | some p => exact h.of_delete rfl rfl

theorem Filed.expire {s : Stub Unit} (h : s.Filed) (call : ℕ) : (s.expire call).Filed := by
  rw [Stub.expire]
  cases s.idOf call with
  | none => exact h
  | some id =>
      dsimp only
      rw [Stub.onROSETimeout]
      cases s.pendingInvokes.get id with
      | none => exact h.of_calls rfl rfl
      | some p =>
          dsimp only
          split_ifs
          · exact h.of_delete rfl rfl
          · exact h.of_delete rfl rfl

theorem Filed.ids_append {s : Stub Unit} (h : s.Filed) (c : Call Unit) {e : ℤ × PendingInvoke}
    (he : e ∈ s.pendingInvokes) : ∃ c', (s.calls ++ [c])[e.2.call]? = some c' ∧ c'.id = e.1 := by
  obtain ⟨c', hc', hid⟩ := h.ids e he
  exact ⟨c', by rw [List.getElem?_append_left (h.call_lt he), hc'], hid⟩

theorem Filed.atOnce {s : Stub Unit} (h : s.Filed) (id : ℤ) : (s.atOnce id).Filed :=
  ⟨h.keys, fun _ he => h.ids_append _ he⟩

theorem Filed.enter {s : Stub Unit} (h : s.Filed) (id : ℤ) (timer : Bool) :
    (s.enter id timer).Filed := by
  refine ⟨PendingInvokes.nodup_set h.keys id _, fun e he => ?_⟩
  rcases PendingInvokes.mem_set.mp he with ⟨he, -⟩ | rfl
  · exact h.ids_append _ he
  · exact ⟨_, List.getElem?_concat_length .., rfl⟩

/-- Every step keeps the entries under their ids. -/
theorem filed_act {s : Stub Unit} (h : s.Filed) (a : CallAction) : (s.act a).Filed := by
  cases a with
  | clientInvoke data mode =>
      rw [act, clientSendInvoke.eq_def]
      split_ifs
      · exact h.atOnce _
      · exact (h.enter _ _).of_calls rfl rfl
      · exact h.enter _ _
      · exact h.atOnce _
  | serverInvoke data reachable sending =>
      rw [act, serverSendInvoke.eq_def]
      split_ifs
      · exact h.atOnce _
      · cases sending with
        | throws => exact (h.enter _ _).of_calls rfl rfl
        | failed => exact (h.enter _ _).take _ _
        | sent => exact h.enter _ _
      · cases sending with
        | throws => exact h.atOnce _
        | failed => exact (h.atOnce _).take _ _
        | sent => exact h.atOnce _
  | failed call =>
      rw [act]
      cases s.idOf call with
      | none => exact h
      | some id => exact h.take id _
  | result invokeID => exact h.take _ _
  | error invokedID => exact h.take _ _
  | reject invokedID =>
      cases invokedID with
      | none => exact h
      | some invokedID => exact h.take _ _
  | expire call => exact h.expire call
  | pause => exact ⟨List.nodup_nil, fun e he => absurd he List.not_mem_nil⟩
  | resume => exact h.of_calls rfl rfl

/-- An entry without a timer has none, and no event has an entry. -/
structure Tidy (s : Stub Unit) : Prop where
  filed : s.Filed
  untimed : ∀ e ∈ s.pendingInvokes, e.2.timerID = false → e.2.call ∉ s.timers
  timers : ∀ call ∈ s.timers, call < s.calls.length
  settled : ∀ call ∈ s.settled.map Prod.fst, call < s.calls.length
  clean : s.Clean
  events : s.pendingInvokes.get eventInvokeID = none

theorem filed_init : (init : Stub Unit).Filed := ⟨List.nodup_nil, by simp [init]⟩

theorem tidy_init : (init : Stub Unit).Tidy where
  filed := filed_init
  untimed := by simp [init]
  timers := by simp [init]
  settled := by simp [init]
  clean := by
    intro call h
    exact ⟨by simp [init], by simp [init]⟩
  events := rfl

theorem Tidy.lt {s : Stub Unit} (h : s.Tidy) {call : ℕ} (hcall : s.Settled call) :
    call < s.calls.length := by
  rcases hcall with hcall | ⟨c, hc, -⟩
  · exact h.settled call hcall
  · exact (List.getElem?_eq_some_iff.mp hc).1

theorem events_delete {m : PendingInvokes} (h : m.get eventInvokeID = none) (id : ℤ) :
    (m.delete id).get eventInvokeID = none :=
  PendingInvokes.get_eq_none.mpr fun e he =>
    PendingInvokes.get_eq_none.mp h e (PendingInvokes.mem_delete.mp he).1

/-- An entry is taken out without its promise being settled. -/
theorem Tidy.delete {s : Stub Unit} (h : s.Tidy) (id : ℤ) :
    Tidy { s with pendingInvokes := s.pendingInvokes.delete id } where
  filed := h.filed.of_delete rfl rfl
  untimed := fun e he => h.untimed e (PendingInvokes.mem_delete.mp he).1
  timers := h.timers
  settled := h.settled
  clean := fun call hcall =>
    ⟨fun e he => (h.clean call hcall).1 e (PendingInvokes.mem_delete.mp he).1,
      (h.clean call hcall).2⟩
  events := events_delete h.events id

theorem Tidy.filterTimers {s : Stub Unit} (h : s.Tidy) (call : ℕ) :
    Tidy { s with timers := s.timers.filter (· ≠ call) } where
  filed := h.filed.of_calls rfl rfl
  untimed := fun e he ht hmem => h.untimed e he ht (List.mem_filter.mp hmem).1
  timers := fun call' hcall' => h.timers call' (List.mem_filter.mp hcall').1
  settled := h.settled
  clean := fun call' hcall' =>
    ⟨(h.clean call' hcall').1, fun hmem => (h.clean call' hcall').2 (List.mem_filter.mp hmem).1⟩
  events := h.events

/-- A timer that is left when an entry is completed belongs to another call. -/
theorem mem_timers_complete {s : Stub Unit} {p : PendingInvoke} {cause : Cause Unit} {call : ℕ}
    (h : call ∈ (s.complete p cause).timers) :
    call ∈ s.timers ∧ (p.timerID = true → call ≠ p.call) := by
  simp only [complete] at h
  split at h
  · rw [List.mem_filter, decide_eq_true_eq] at h
    exact ⟨h.1, fun _ => h.2⟩
  · next hno => exact ⟨h, fun hyes => absurd hyes hno⟩

/-- The entry goes first, then the timer, and then the promise is settled. -/
theorem Tidy.settle {s : Stub Unit} (h : s.Tidy) {e : ℤ × PendingInvoke}
    (he : e ∈ s.pendingInvokes) (cause : Cause Unit) :
    Tidy ({ s with pendingInvokes := s.pendingInvokes.delete e.1 }.complete e.2 cause) := by
  have hdelete := h.delete e.1
  constructor
  case filed => exact hdelete.filed.of_calls rfl rfl
  case untimed =>
    intro e' he' ht hmem
    exact hdelete.untimed e' he' ht (mem_timers_complete hmem).1
  case timers => exact fun call hcall => hdelete.timers call (mem_timers_complete hcall).1
  case settled =>
    intro call hcall
    rw [complete, List.map_append, List.mem_append] at hcall
    rcases hcall with hcall | hcall
    · exact h.settled call hcall
    · rw [List.map_singleton, List.mem_singleton] at hcall
      rw [hcall]
      exact h.filed.call_lt he
  case clean =>
    intro call hcall
    rw [Settled, complete, List.map_append, List.mem_append, or_assoc] at hcall
    have hsplit : s.Settled call ∨ call = e.2.call := by
      rcases hcall with hcall | hcall | hcall
      · exact .inl (.inl hcall)
      · exact .inr (List.mem_singleton.mp hcall)
      · exact .inl (.inr hcall)
    rcases hsplit with hold | rfl
    · exact ⟨(hdelete.clean call hold).1,
        fun hmem => (hdelete.clean call hold).2 (mem_timers_complete hmem).1⟩
    · refine ⟨fun e' he' => ?_, fun hmem => ?_⟩
      · obtain ⟨hmem, hne⟩ := PendingInvokes.mem_delete.mp he'
        exact h.filed.call_ne he hmem hne
      · obtain ⟨hmem, htimer⟩ := mem_timers_complete hmem
        cases ht : e.2.timerID with
        | false => exact h.untimed e he ht hmem
        | true => exact htimer ht rfl
  case events => exact hdelete.events

theorem Tidy.take {s : Stub Unit} (h : s.Tidy) (id : ℤ) (cause : Cause Unit) :
    (s.take id cause).Tidy := by
  rw [Stub.take]
  cases hget : s.pendingInvokes.get id with
  | none => exact h
  | some p => exact h.settle (PendingInvokes.mem_of_get hget) cause

theorem Tidy.onROSETimeout {s : Stub Unit} (h : s.Tidy) (id : ℤ) (call : ℕ) :
    (s.onROSETimeout id call).Tidy := by
  rw [Stub.onROSETimeout]
  cases hget : s.pendingInvokes.get id with
  | none => exact h
  | some p =>
      dsimp only
      split_ifs
      · exact h.settle (PendingInvokes.mem_of_get hget) _
      · exact h.delete id

theorem Tidy.expire {s : Stub Unit} (h : s.Tidy) (call : ℕ) : (s.expire call).Tidy := by
  rw [Stub.expire]
  cases s.idOf call with
  | none => exact h
  | some id => exact (h.filterTimers call).onROSETimeout id call

theorem Tidy.pause {s : Stub Unit} (h : s.Tidy) : s.pauseRoseProcessing.Tidy := by
  obtain ⟨hsettled, hcalls, -, htimers⟩ :=
    foldl_complete { s with roseProcessingAllowed := false } s.pendingInvokes
  dsimp only at hsettled hcalls htimers
  rw [pauseRoseProcessing, completeAllPendingOperations]
  constructor
  case filed => exact filed_act h.filed .pause
  case untimed => exact fun e he => absurd he List.not_mem_nil
  case timers =>
    intro call hcall
    dsimp only
    rw [hcalls]
    exact h.timers call (htimers call hcall).1
  case settled =>
    intro call hcall
    dsimp only at hcall ⊢
    rw [hsettled, List.map_append, List.mem_append, List.map_map] at hcall
    rw [hcalls]
    rcases hcall with hcall | hcall
    · exact h.settled call hcall
    · obtain ⟨e, he, rfl⟩ := List.mem_map.mp hcall
      exact h.filed.call_lt he
  case clean =>
    intro call hcall
    refine ⟨fun e he => absurd he List.not_mem_nil, fun hmem => ?_⟩
    obtain ⟨hold, hnone⟩ := htimers call hmem
    rw [Settled] at hcall
    dsimp only at hcall
    rw [hsettled, hcalls, List.map_append, List.mem_append, List.map_map, or_assoc] at hcall
    rcases hcall with hcall | hcall | hcall
    · exact (h.clean call (.inl hcall)).2 hold
    · obtain ⟨e, he, rfl⟩ := List.mem_map.mp hcall
      cases ht : e.2.timerID with
      | false => exact h.untimed e he ht hold
      | true => exact hnone e he (by rw [← ht]; rfl)
    · exact (h.clean call (.inr hcall)).2 hold
  case events => rfl

theorem Settled.of_append {s : Stub Unit} {c : Call Unit} {call : ℕ}
    (h : Settled { s with calls := s.calls ++ [c] } call) :
    s.Settled call ∨ call = s.calls.length ∧ c.pending = false := by
  rcases h with h | ⟨c', hc', hpending⟩
  · exact .inl (.inl h)
  · rcases Nat.lt_or_ge call s.calls.length with hlt | hge
    · dsimp only at hc'
      rw [List.getElem?_append_left hlt] at hc'
      exact .inl (.inr ⟨c', hc', hpending⟩)
    · have hlt := (List.getElem?_eq_some_iff.mp hc').1
      rw [List.length_append, List.length_singleton] at hlt
      obtain rfl : call = s.calls.length := by omega
      dsimp only at hc'
      rw [List.getElem?_concat_length] at hc'
      exact .inr ⟨rfl, by rw [Option.some.inj hc', hpending]⟩

theorem Tidy.atOnce {s : Stub Unit} (h : s.Tidy) (id : ℤ) : (s.atOnce id).Tidy := by
  rw [Stub.atOnce]
  constructor
  case filed => exact h.filed.atOnce id
  case untimed => exact h.untimed
  case timers =>
    intro call hcall
    rw [List.length_append]
    exact (h.timers call hcall).trans (Nat.lt_succ_self _)
  case settled =>
    intro call hcall
    rw [List.length_append]
    exact (h.settled call hcall).trans (Nat.lt_succ_self _)
  case clean =>
    intro call hcall
    rcases Settled.of_append hcall with hold | ⟨rfl, -⟩
    · exact h.clean call hold
    · exact ⟨fun e he => (h.filed.call_lt he).ne, fun hmem => (h.timers _ hmem).ne rfl⟩
  case events => exact h.events

theorem Tidy.enter {s : Stub Unit} (h : s.Tidy) {id : ℤ} (hid : id ≠ eventInvokeID)
    (timer : Bool) : (s.enter id timer).Tidy := by
  have htimers {call : ℕ} (hcall : call ∈ (s.enter id timer).timers) :
      call ∈ s.timers ∨ call = s.calls.length ∧ timer = true := by
    simp only [Stub.enter] at hcall
    split_ifs at hcall with ht
    · rw [List.mem_append, List.mem_singleton] at hcall
      exact hcall.imp_right fun heq => ⟨heq, ht⟩
    · exact .inl hcall
  constructor
  case filed => exact h.filed.enter id timer
  case untimed =>
    intro e he ht hmem
    rcases PendingInvokes.mem_set.mp he with ⟨he, -⟩ | rfl
    · rcases htimers hmem with hold | ⟨hnew, -⟩
      · exact h.untimed e he ht hold
      · exact (h.filed.call_lt he).ne hnew
    · rcases htimers hmem with hold | ⟨-, htrue⟩
      · exact (h.timers _ hold).ne rfl
      · exact Bool.false_ne_true (ht.symm.trans htrue)
  case timers =>
    intro call hcall
    rw [Stub.enter, List.length_append, List.length_singleton]
    rcases htimers hcall with hold | ⟨rfl, -⟩
    · exact (h.timers call hold).trans (Nat.lt_succ_self _)
    · exact Nat.lt_succ_self _
  case settled =>
    intro call hcall
    rw [Stub.enter, List.length_append]
    exact (h.settled call hcall).trans (Nat.lt_succ_self _)
  case clean =>
    intro call hcall
    have hold : s.Settled call := by
      rcases @Settled.of_append s ⟨id, (), true⟩ call hcall with hold | ⟨-, hpending⟩
      · exact hold
      · cases hpending
    have hlt := h.lt hold
    refine ⟨fun e he => ?_, fun hmem => ?_⟩
    · rcases PendingInvokes.mem_set.mp he with ⟨he, -⟩ | rfl
      · exact (h.clean call hold).1 e he
      · exact hlt.ne'
    · rcases htimers hmem with hmem | ⟨hnew, -⟩
      · exact (h.clean call hold).2 hmem
      · exact hlt.ne hnew
  case events =>
    refine PendingInvokes.get_eq_none.mpr fun e he => ?_
    rcases PendingInvokes.mem_set.mp he with ⟨he, -⟩ | rfl
    · exact PendingInvokes.get_eq_none.mp h.events e he
    · exact hid

/-! ### One step -/

theorem delete_set (m : PendingInvokes) (id : ℤ) (p : PendingInvoke) :
    (m.set id p).delete id = m.delete id := by
  rw [PendingInvokes.set, PendingInvokes.delete, List.filter_append]
  simp [PendingInvokes.delete, List.filter_filter]

theorem pendingInvokes_take (s : Stub Unit) (id : ℤ) (cause : Cause Unit) :
    (s.take id cause).pendingInvokes = s.pendingInvokes.delete id := by
  rw [take]
  cases hget : s.pendingInvokes.get id with
  | none => exact (delete_of_get_none hget).symm
  | some p => rfl

/-- The promise is settled, and the entry is still there. -/
theorem not_clean_settlePast (s : Stub Unit) (id : ℤ) (timer : Bool) :
    ¬((s.enter id timer).settlePast s.calls.length).Clean := by
  intro h
  have hsettled : ((s.enter id timer).settlePast s.calls.length).Settled s.calls.length := by
    refine .inl ?_
    rw [settlePast, List.map_append]
    exact List.mem_append_right _ List.mem_cons_self
  exact (h _ hsettled).1 (id, ⟨s.calls.length, timer⟩)
    (PendingInvokes.mem_set.mpr (.inr rfl)) rfl

variable {s : Stub Unit}

theorem clientSendInvoke_iff (h : s.Tidy) (data : InvokeData) (mode : EASNCONNECTIONMODE) :
    (s.StepsCleanly (.clientInvoke data mode) (s.clientSendInvoke data mode) ↔
      s.Allowed (.clientInvoke data mode)) ∧
    (s.Allowed (.clientInvoke data mode) → (s.clientSendInvoke data mode).Tidy) := by
  have hatOnce := h.atOnce data.invokeID
  simp only [StepsCleanly, Allowed, FailsAtOnce, clientSendInvoke]
  cases hprocessing : s.roseProcessingAllowed with
  | false => exact ⟨iff_of_true ⟨hatOnce.clean, fun _ => rfl⟩ fun h => (by cases h),
      fun _ => hatOnce⟩
  | true =>
      rw [if_neg (by decide)]
      cases hentry : makesEntry data mode with
      | false =>
          rw [if_neg (by decide)]
          exact ⟨iff_of_true ⟨hatOnce.clean, fun _ => rfl⟩ fun _ h => (by cases h),
            fun _ => hatOnce⟩
      | true =>
          have hid : data.invokeID ≠ eventInvokeID := (of_decide_eq_true hentry).1
          have henter := h.enter hid data.timeout
          rw [if_pos rfl]
          by_cases hmode : mode = .UNKNOWN
          · rw [if_pos hmode]
            exact ⟨iff_of_false (fun hstep => not_clean_settlePast s _ _ hstep.1)
              fun hallowed => hallowed rfl rfl hmode, fun hallowed =>
              absurd hmode (hallowed rfl rfl)⟩
          · rw [if_neg hmode]
            refine ⟨iff_of_true ⟨henter.clean, fun hfails => ?_⟩ fun _ _ => hmode, fun _ => henter⟩
            rcases hfails with hfails | hfails
            · cases hfails
            · exact absurd hfails hmode

theorem serverSendInvoke_iff (h : s.Tidy) (data : InvokeData) (reachable : Bool)
    (sending : Sending) :
    (s.StepsCleanly (.serverInvoke data reachable sending)
        (s.serverSendInvoke data reachable sending) ↔
      s.Allowed (.serverInvoke data reachable sending)) ∧
    (s.Allowed (.serverInvoke data reachable sending) →
      (s.serverSendInvoke data reachable sending).Tidy) := by
  have hatOnce := h.atOnce data.invokeID
  simp only [StepsCleanly, Allowed, FailsAtOnce, serverSendInvoke]
  cases hprocessing : s.roseProcessingAllowed with
  | false => exact ⟨iff_of_true ⟨hatOnce.clean, fun _ => rfl⟩ fun h => (by cases h),
      fun _ => hatOnce⟩
  | true =>
      cases reachable with
      | false =>
          exact ⟨iff_of_true ⟨hatOnce.clean, fun _ => rfl⟩ fun _ h => (by cases h),
            fun _ => hatOnce⟩
      | true =>
          rw [if_neg (by decide)]
          by_cases hevent : data.invokeID = eventInvokeID
          · rw [if_neg (not_not_intro hevent)]
            cases sending with
            | failed =>
                dsimp only
                have htake := hatOnce.take data.invokeID (.unsent s.calls.length)
                refine ⟨iff_of_true ⟨htake.clean, fun _ => ?_⟩ fun _ _ hne =>
                  absurd hevent hne, fun _ => htake⟩
                rw [pendingInvokes_take]
                refine delete_of_get_none ?_
                rw [hevent]
                exact h.events
            | throws =>
                exact ⟨iff_of_true ⟨hatOnce.clean, fun _ => rfl⟩ fun _ _ hne =>
                  absurd hevent hne, fun _ => hatOnce⟩
            | sent =>
                exact ⟨iff_of_true ⟨hatOnce.clean, fun _ => rfl⟩ fun _ _ hne =>
                  absurd hevent hne, fun _ => hatOnce⟩
          · have henter := h.enter hevent true
            rw [if_pos hevent]
            cases sending with
            | throws =>
                exact ⟨iff_of_false (fun hstep => not_clean_settlePast s _ _ hstep.1)
                  fun hallowed => (hallowed rfl rfl hevent).1 rfl, fun hallowed =>
                  absurd rfl (hallowed rfl rfl hevent).1⟩
            | failed =>
                dsimp only
                have htake := henter.take data.invokeID (.unsent s.calls.length)
                have hmap : ((s.enter data.invokeID true).take data.invokeID
                    (.unsent s.calls.length)).pendingInvokes =
                      s.pendingInvokes.delete data.invokeID := by
                  rw [pendingInvokes_take]
                  exact delete_set _ _ _
                rw [hmap]
                refine ⟨⟨fun hstep _ _ _ => ⟨fun h => (by cases h), fun _ => ?_⟩,
                  fun hallowed => ⟨htake.clean,
                    fun _ => delete_of_get_none ((hallowed rfl rfl hevent).2 rfl)⟩⟩,
                  fun _ => htake⟩
                rw [← hstep.2 (.inr (.inr fun h => (by cases h)))]
                exact PendingInvokes.get_eq_none.mpr fun e he =>
                  (PendingInvokes.mem_delete.mp he).2
            | sent =>
                refine ⟨iff_of_true ⟨henter.clean, fun hfails => ?_⟩ fun _ _ _ =>
                  ⟨fun h => (by cases h), fun h => (by cases h)⟩, fun _ => henter⟩
                rcases hfails with hfails | hfails | hfails
                · cases hfails
                · cases hfails
                · exact absurd rfl hfails

/-- A step leaves nothing behind if and only if it is allowed, and then the state is tidy. -/
theorem act_iff (h : s.Tidy) (a : CallAction) :
    (s.StepsCleanly a (s.act a) ↔ s.Allowed a) ∧ (s.Allowed a → (s.act a).Tidy) := by
  have hother {a : CallAction} (hfails : ¬s.FailsAtOnce a) (hallowed : s.Allowed a)
      (ht : (s.act a).Tidy) :
      (s.StepsCleanly a (s.act a) ↔ s.Allowed a) ∧ (s.Allowed a → (s.act a).Tidy) :=
    ⟨iff_of_true ⟨ht.clean, fun hf => absurd hf hfails⟩ hallowed, fun _ => ht⟩
  cases a with
  | clientInvoke data mode => exact clientSendInvoke_iff h data mode
  | serverInvoke data reachable sending => exact serverSendInvoke_iff h data reachable sending
  | failed call =>
      refine hother id trivial ?_
      rw [act]
      cases s.idOf call with
      | none => exact h
      | some id => exact h.take id _
  | result invokeID => exact hother id trivial (h.take _ _)
  | error invokedID => exact hother id trivial (h.take _ _)
  | reject invokedID =>
      refine hother id trivial ?_
      cases invokedID with
      | none => exact h
      | some invokedID => exact h.take _ _
  | expire call => exact hother id trivial (h.expire call)
  | pause => exact hother id trivial h.pause
  | resume =>
      exact hother id trivial
        ⟨h.filed.of_calls rfl rfl, h.untimed, h.timers, h.settled, h.clean, h.events⟩

/-- After allowed steps what is settled has nothing left, and the next step is as it should be if
and only if it is allowed. -/
theorem clean_of_allowed {trace : List CallAction}
    (h : Run (restrict step Allowed) init trace s) :
    s.Clean ∧ ∀ a s', s.step a s' → (s.StepsCleanly a s' ↔ s.Allowed a) := by
  have htidy : s.Tidy := by
    refine h.state_invariant tidy_init ?_
    intro s a s' hs hstep
    obtain ⟨⟨rfl, -⟩, hallowed⟩ := hstep
    exact (act_iff hs a).2 hallowed
  refine ⟨htidy.clean, fun a s' hstep => ?_⟩
  rw [hstep.1]
  exact (act_iff htidy a).1

/-- An invoke over a WebSocket and its result. -/
theorem clean_answered :
    ((init.act (.clientInvoke ⟨1, true⟩ .WEBSOCKET)).act (.result 1)).Clean := by
  have hinvoke : restrict step Allowed init (.clientInvoke ⟨1, true⟩ .WEBSOCKET)
      (init.act (.clientInvoke ⟨1, true⟩ .WEBSOCKET)) :=
    ⟨⟨rfl, fun _ h => by cases h⟩, fun _ _ => by decide⟩
  have hresult : restrict step Allowed (init.act (.clientInvoke ⟨1, true⟩ .WEBSOCKET))
      (.result 1) ((init.act (.clientInvoke ⟨1, true⟩ .WEBSOCKET)).act (.result 1)) :=
    ⟨⟨rfl, fun _ h => by cases h⟩, trivial⟩
  exact (clean_of_allowed ((Run.single hinvoke).snoc hresult)).1

/-- Without a target the promise of an invoke is rejected, and its entry and its timer stay. -/
theorem not_clean :
    ¬ ∀ (trace : List CallAction) (s : Stub Unit), Run step init trace s → s.Clean := by
  intro h
  have hstep : step init (.clientInvoke ⟨1, true⟩ .UNKNOWN)
      ((init.enter 1 true).settlePast (init : Stub Unit).calls.length) :=
    ⟨rfl, fun _ h => by cases h⟩
  exact not_clean_settlePast init 1 true (h _ _ (Run.single hstep))

end Stub

end Esnacc.Ts
