import Esnacc.Ts.ServerInvokes

/-!
The gate of a `TSASN1Client`. It is looked at when an invoke is called; the bytes go out when the
promise of the connection is continued, and nothing looks at the gate then.
-/

namespace Esnacc.Ts

open Transition

/-- Something that has been given to the socket: whether processing was paused at that time, and
whether a pause or its own timer had settled the promise of the call. -/
structure Handed where
  call : Option ℕ
  whilePaused : Bool
  afterCancel : Bool
  deriving DecidableEq, Repr

/-- A client. `waiting` are the calls whose connection promise has not been continued yet; of
these, `disturbed` have met a pause or the end of their own timer. -/
structure Client where
  stub : ClientStub
  socketOpen : Bool
  waiting : List ℕ
  disturbed : List ℕ
  handed : List Handed
  deriving DecidableEq, Repr

/-- What happens to a client. -/
inductive GateAction
  | sendInvoke (encoded rest timeout : Bool)
  | sendEvent (throws : Bool)
  | continued (call : ℕ) (throws : Bool)
  | connectFailed (call : ℕ)
  | socket (isOpen : Bool)
  | result (invokeID : ℤ)
  | error (invokedID : ℤ)
  | reject (invokedID : Option ℤ)
  | expire (call : ℕ)
  | pause
  | resume
  deriving DecidableEq, Repr

namespace Client

def init : Client := ⟨Stub.init, false, [], [], []⟩

/-- A pause or the own timer has settled the promise of the call. -/
def cancelled (c : Client) (call : ℕ) : Bool :=
  c.stub.settled.any fun e => e = (call, .shutdown) ∨ e = (call, .timeout call)

/-- `connection.send` in `sendStatefull`. -/
def hand (c : Client) (call : ℕ) : Client :=
  { c with
    handed := c.handed ++ [⟨some call, !c.stub.roseProcessingAllowed, c.cancelled call⟩] }

/-- What `TSASN1Client.sendInvoke` gives to `sendStatefull` waits for the connection. -/
def sendInvoke (c : Client) (encoded rest timeout : Bool) : Client :=
  let call := c.stub.calls.length
  let passes := encoded && c.stub.roseProcessingAllowed && !rest
  { c with
    stub := ClientStub.sendInvoke c.stub encoded rest timeout
    waiting := if passes then c.waiting ++ [call] else c.waiting }

def sendEvent (c : Client) (throws : Bool) : Client :=
  if !c.stub.roseProcessingAllowed then c
  else if !c.socketOpen then c
  else if throws then c
  else { c with handed := c.handed ++ [⟨none, !c.stub.roseProcessingAllowed, false⟩] }

/-- The `catch` of `sendStatefull` takes the invoke out of the map. -/
def connectFailed (c : Client) (call : ℕ) : Client :=
  { c with
    stub := ClientStub.act c.stub (.connectFailed call)
    waiting := c.waiting.filter (· ≠ call) }

def act (c : Client) : GateAction → Client
  | .sendInvoke encoded rest timeout => c.sendInvoke encoded rest timeout
  | .sendEvent throws => c.sendEvent throws
  | .continued call throws =>
      if throws then c.connectFailed call
      else { c.hand call with waiting := c.waiting.filter (· ≠ call) }
  | .connectFailed call => c.connectFailed call
  | .socket isOpen => { c with socketOpen := isOpen }
  | .result invokeID => { c with stub := ClientStub.act c.stub (.result invokeID) }
  | .error invokedID => { c with stub := ClientStub.act c.stub (.error invokedID) }
  | .reject invokedID => { c with stub := ClientStub.act c.stub (.reject invokedID) }
  | .expire call =>
      { c with
        stub := ClientStub.act c.stub (.expire call)
        disturbed := c.disturbed ++ c.waiting.filter (· = call) }
  | .pause =>
      { c with
        stub := ClientStub.act c.stub .pause
        disturbed := c.disturbed ++ c.waiting }
  | .resume => { c with stub := ClientStub.act c.stub .resume }

def step (c : Client) (a : GateAction) (c' : Client) : Prop :=
  c' = c.act a ∧
    match a with
    | .expire call => call ∈ c.stub.timers
    | .continued call _ | .connectFailed call => call ∈ c.waiting
    | _ => True

/-- No invoke goes out that has met a pause or the end of its timer while it was waiting. -/
def Undisturbed (c : Client) (a : GateAction) : Prop :=
  ∀ call, a = .continued call false → call ∉ c.disturbed

end Client

namespace Stub

variable {κ : Type}

/-- Calls are numbered below their number. -/
structure Bounded (s : Stub κ) : Prop where
  entries : ∀ e ∈ s.pendingInvokes, e.2.call < s.calls.length
  settled : ∀ e ∈ s.settled, e.1 < s.calls.length

theorem Bounded.delete {s : Stub κ} (h : s.Bounded) (id : ℤ) :
    Bounded { s with pendingInvokes := s.pendingInvokes.delete id } :=
  ⟨fun e he => h.entries e (PendingInvokes.mem_delete.1 he).1, h.settled⟩

theorem Bounded.complete {s : Stub κ} (h : s.Bounded) {p : PendingInvoke}
    (hp : p.call < s.calls.length) (cause : Cause κ) : (s.complete p cause).Bounded := by
  refine ⟨h.entries, fun e he => ?_⟩
  rcases List.mem_append.1 he with he | he
  · exact h.settled e he
  · rw [List.mem_singleton.1 he]
    exact hp

theorem Bounded.take {s : Stub κ} (h : s.Bounded) (id : ℤ) (cause : Cause κ) :
    (s.take id cause).Bounded := by
  rw [Stub.take]
  split
  · exact h
  · next p hget => exact (h.delete id).complete (h.entries _ (PendingInvokes.mem_of_get hget)) cause

theorem Bounded.expire {s : Stub κ} (h : s.Bounded) (call : ℕ) : (s.expire call).Bounded := by
  rw [Stub.expire]
  split
  · exact h
  · next id _ =>
      have htimers : Bounded { s with timers := s.timers.filter (· ≠ call) } :=
        ⟨h.entries, h.settled⟩
      rw [onROSETimeout]
      split
      · exact htimers
      · next p hget =>
          dsimp only
          split
          · exact (htimers.delete id).complete (h.entries _ (PendingInvokes.mem_of_get hget)) _
          · exact htimers.delete id

theorem Bounded.pause {s : Stub κ} (h : s.Bounded) : s.pauseRoseProcessing.Bounded := by
  refine ⟨by simp [pauseRoseProcessing, completeAllPendingOperations], fun e he => ?_⟩
  rw [calls_pause]
  rw [settled_pause, List.mem_append] at he
  rcases he with he | he
  · exact h.settled e he
  · obtain ⟨e', he', rfl⟩ := List.mem_map.1 he
    exact h.entries e' he'

theorem Bounded.snoc {s s' : Stub κ} (h : s.Bounded) {c : Call κ}
    (hcalls : s'.calls = s.calls ++ [c]) (hsettled : s'.settled = s.settled)
    (hentries : ∀ e ∈ s'.pendingInvokes, e ∈ s.pendingInvokes ∨ e.2.call = s.calls.length) :
    s'.Bounded := by
  have hlength : s'.calls.length = s.calls.length + 1 := by
    rw [hcalls, List.length_append, List.length_singleton]
  constructor
  · intro e he
    rcases hentries e he with he | he
    · have hlt := h.entries e he
      omega
    · omega
  · intro e he
    rw [hsettled] at he
    have hlt := h.settled e he
    omega

end Stub

namespace ClientStub

open Stub

theorem bounded_act {s : ClientStub} (h : s.Bounded) (a : ClientAction) : (act s a).Bounded := by
  cases a with
  | sendInvoke encoded rest timeout =>
      change (sendInvoke s encoded rest timeout).Bounded
      rcases sendInvoke_cases s encoded rest timeout with heq | heq
      · rw [heq]
        exact h.snoc rfl rfl fun e he => .inl he
      · rw [heq]
        refine h.snoc rfl rfl fun e he => ?_
        rcases PendingInvokes.mem_set.1 he with he | rfl
        · exact .inl he.1
        · exact .inr rfl
  | result id => exact h.take _ _
  | error id => exact h.take _ _
  | reject id =>
      cases id with
      | none => exact h
      | some id => exact h.take _ _
  | connectFailed call =>
      simp only [act]
      split
      · exact h
      · exact h.take _ _
  | expire call => exact h.expire call
  | pause => exact h.pause
  | resume => exact ⟨h.entries, h.settled⟩

theorem sendInvoke_settled (s : ClientStub) (encoded rest timeout : Bool) :
    (sendInvoke s encoded rest timeout).settled = s.settled := by
  rcases sendInvoke_cases s encoded rest timeout with heq | heq <;> rw [heq] <;> rfl

/-- What settles a promise is no shutdown and no timer, unless there is a pause or the timer of a
call expires. -/
theorem cancelled_of_act {s : ClientStub} {a : ClientAction} {call : ℕ} {cause : Cause Unit}
    (hcause : cause = .shutdown ∨ cause = .timeout call)
    (h : (call, cause) ∈ (act s a).settled) :
    (call, cause) ∈ s.settled ∨ a = .pause ∨ a = .expire call := by
  have htake {id : ℤ} {cause' : Cause Unit} (hne : cause' ≠ cause)
      (h : (call, cause) ∈ (s.take id cause').settled) : (call, cause) ∈ s.settled := by
    rcases settled_take s id cause' with heq | ⟨p, -, heq⟩
    · exact heq ▸ h
    · rw [heq, List.mem_append, List.mem_singleton] at h
      rcases h with h | h
      · exact h
      · cases h
        exact absurd rfl hne
  have hanswer {kind : Answer} {id : ℤ} : Cause.answer () kind id ≠ cause := by
    rcases hcause with rfl | rfl <;> simp
  have hunsent {call' : ℕ} : Cause.unsent call' ≠ cause := by
    rcases hcause with rfl | rfl <;> simp
  cases a with
  | sendInvoke encoded rest timeout =>
      change _ ∈ (sendInvoke s encoded rest timeout).settled at h
      rw [sendInvoke_settled] at h
      exact .inl h
  | result id => exact .inl (htake hanswer h)
  | error id => exact .inl (htake hanswer h)
  | reject id =>
      cases id with
      | none => exact .inl h
      | some id => exact .inl (htake hanswer h)
  | connectFailed call' =>
      simp only [act] at h
      split at h
      · exact .inl h
      · exact .inl (htake hunsent h)
  | expire call' =>
      rcases settled_expire s call' with heq | ⟨call'', heq⟩
      · exact .inl (heq ▸ h)
      · change _ ∈ (s.expire call').settled at h
        rw [heq, List.mem_append, List.mem_singleton] at h
        rcases h with h | h
        · exact .inl h
        · cases h
          rcases hcause with hcause | hcause
          · cases hcause
          · cases hcause
            exact .inr (.inr rfl)
  | pause => exact .inr (.inl rfl)
  | resume => exact .inl h

theorem allowed_act (s : ClientStub) {a : ClientAction} (hpause : a ≠ .pause)
    (hresume : a ≠ .resume) : (act s a).roseProcessingAllowed = s.roseProcessingAllowed := by
  have htake (id : ℤ) (cause : Cause Unit) :
      (s.take id cause).roseProcessingAllowed = s.roseProcessingAllowed := by
    rw [take]
    split <;> rfl
  cases a with
  | sendInvoke encoded rest timeout =>
      change (sendInvoke s encoded rest timeout).roseProcessingAllowed = _
      rcases sendInvoke_cases s encoded rest timeout with heq | heq <;> rw [heq] <;> rfl
  | result id => exact htake _ _
  | error id => exact htake _ _
  | reject id =>
      cases id with
      | none => rfl
      | some id => exact htake _ _
  | connectFailed call =>
      simp only [act]
      split
      · rfl
      · exact htake _ _
  | expire call =>
      change (s.expire call).roseProcessingAllowed = _
      rw [expire]
      split
      · rfl
      · rw [onROSETimeout]
        split
        · rfl
        · dsimp only
          split <;> rfl
  | pause => exact absurd rfl hpause
  | resume => exact absurd rfl hresume

end ClientStub

namespace Client

open Stub

/-- While processing is paused, and behind a cancellation, the waiting calls are disturbed. -/
structure Inv (c : Client) : Prop where
  bounded : c.stub.Bounded
  waiting : ∀ call ∈ c.waiting, call < c.stub.calls.length
  paused : c.stub.roseProcessingAllowed = false → ∀ call ∈ c.waiting, call ∈ c.disturbed
  cancelled : ∀ call ∈ c.waiting, c.cancelled call = true → call ∈ c.disturbed
  handed : ∀ e ∈ c.handed, e.whilePaused = false ∧ e.afterCancel = false

theorem cancelled_iff {c : Client} {call : ℕ} : c.cancelled call = true ↔
    ∃ cause, (cause = .shutdown ∨ cause = .timeout call) ∧ (call, cause) ∈ c.stub.settled := by
  rw [Client.cancelled, List.any_eq_true]
  constructor
  · rintro ⟨e, he, hcause⟩
    rcases of_decide_eq_true hcause with rfl | rfl
    · exact ⟨_, .inl rfl, he⟩
    · exact ⟨_, .inr rfl, he⟩
  · rintro ⟨cause, rfl | rfl, he⟩
    · exact ⟨_, he, decide_eq_true (.inl rfl)⟩
    · exact ⟨_, he, decide_eq_true (.inr rfl)⟩

/-- A step of the stub that neither pauses nor ends the timer of a waiting call. -/
theorem Inv.stub {c c' : Client} (h : c.Inv) {a : ClientAction}
    (hstub : c'.stub = ClientStub.act c.stub a) (hwaiting : ∀ call ∈ c'.waiting, call ∈ c.waiting)
    (hdisturbed : ∀ call ∈ c.disturbed, call ∈ c'.disturbed)
    (hhanded : ∀ e ∈ c'.handed, e.whilePaused = false ∧ e.afterCancel = false)
    (hpause : a = .pause → ∀ call ∈ c'.waiting, call ∈ c'.disturbed)
    (hexpire : ∀ call ∈ c'.waiting, a = .expire call → call ∈ c'.disturbed)
    (hresume : a = .resume → c'.stub.roseProcessingAllowed = true) : c'.Inv := by
  constructor
  case bounded =>
    rw [hstub]
    exact ClientStub.bounded_act h.bounded a
  case waiting =>
    intro call hcall
    have hlt := h.waiting call (hwaiting call hcall)
    have hmono : c.stub.calls.length ≤ c'.stub.calls.length := by
      rw [hstub, ClientStub.length_calls_act]
      omega
    omega
  case paused =>
    intro hallowed call hcall
    by_cases hpaused : a = .pause
    · exact hpause hpaused call hcall
    · have hresumed : a ≠ .resume := by
        intro heq
        rw [hresume heq] at hallowed
        cases hallowed
      rw [hstub, ClientStub.allowed_act c.stub hpaused hresumed] at hallowed
      exact hdisturbed call (h.paused hallowed call (hwaiting call hcall))
  case cancelled =>
    intro call hcall hcancelled
    obtain ⟨cause, hcause, hmem⟩ := cancelled_iff.1 hcancelled
    rw [hstub] at hmem
    rcases ClientStub.cancelled_of_act hcause hmem with hmem | hpaused | hexpired
    · exact hdisturbed call (h.cancelled call (hwaiting call hcall)
        (cancelled_iff.2 ⟨cause, hcause, hmem⟩))
    · exact hpause hpaused call hcall
    · exact hexpire call hcall hexpired
  case handed => exact hhanded

theorem Inv.connectFailed {c : Client} (h : c.Inv) (call : ℕ) : (c.connectFailed call).Inv :=
  h.stub (a := .connectFailed call) rfl (fun _ h => (List.mem_filter.1 h).1) (fun _ h => h)
    h.handed (fun heq => by cases heq) (fun _ _ heq => by cases heq) fun heq => by cases heq

/-- A new call is put behind the ones that wait. -/
theorem Inv.sendInvoke {c : Client} (h : c.Inv) (encoded rest timeout : Bool) :
    (c.sendInvoke encoded rest timeout).Inv := by
  have hsettled := ClientStub.sendInvoke_settled c.stub encoded rest timeout
  have hallowed := ClientStub.allowed_act c.stub (a := .sendInvoke encoded rest timeout) (by simp)
    (by simp)
  change (ClientStub.sendInvoke c.stub encoded rest timeout).roseProcessingAllowed = _ at hallowed
  have hlength := ClientStub.length_calls_act c.stub (.sendInvoke encoded rest timeout)
  rw [if_pos (show ClientAction.isSendInvoke (.sendInvoke encoded rest timeout) = true from rfl)]
    at hlength
  have hwaiting {call : ℕ} (hcall : call ∈ (c.sendInvoke encoded rest timeout).waiting) :
      call ∈ c.waiting ∨ call = c.stub.calls.length ∧ c.stub.roseProcessingAllowed = true := by
    simp only [Client.sendInvoke] at hcall
    split at hcall
    · next hpasses =>
        simp only [Bool.and_eq_true] at hpasses
        rcases List.mem_append.1 hcall with hcall | hcall
        · exact .inl hcall
        · exact .inr ⟨List.mem_singleton.1 hcall, hpasses.1.2⟩
    · exact .inl hcall
  constructor
  case bounded => exact ClientStub.bounded_act h.bounded (.sendInvoke encoded rest timeout)
  case waiting =>
    intro call hcall
    change call < (ClientStub.act c.stub (.sendInvoke encoded rest timeout)).calls.length
    rcases hwaiting hcall with hcall | ⟨rfl, -⟩
    · have hlt := h.waiting call hcall
      omega
    · omega
  case paused =>
    intro hpaused call hcall
    change (ClientStub.sendInvoke c.stub encoded rest timeout).roseProcessingAllowed = false
      at hpaused
    rw [hallowed] at hpaused
    rcases hwaiting hcall with hcall | ⟨-, hopen⟩
    · exact h.paused hpaused call hcall
    · rw [hopen] at hpaused
      cases hpaused
  case cancelled =>
    intro call hcall hcancelled
    obtain ⟨cause, hcause, hmem⟩ := cancelled_iff.1 hcancelled
    change _ ∈ (ClientStub.sendInvoke c.stub encoded rest timeout).settled at hmem
    rw [hsettled] at hmem
    rcases hwaiting hcall with hcall | ⟨rfl, -⟩
    · exact h.cancelled call hcall (cancelled_iff.2 ⟨cause, hcause, hmem⟩)
    · exact absurd (h.bounded.settled _ hmem) (lt_irrefl _)
  case handed => exact h.handed

/-- An undisturbed call goes out while processing is allowed, and has not been cancelled. -/
theorem Inv.hand {c : Client} (h : c.Inv) {call : ℕ} (hcall : call ∈ c.waiting)
    (hundisturbed : call ∉ c.disturbed) :
    Inv { c.hand call with waiting := c.waiting.filter (· ≠ call) } := by
  have hwaiting {call' : ℕ} (h : call' ∈ c.waiting.filter (· ≠ call)) : call' ∈ c.waiting :=
    (List.mem_filter.1 h).1
  refine ⟨h.bounded, fun call' hcall' => h.waiting call' (hwaiting hcall'),
    fun hpaused call' hcall' => h.paused hpaused call' (hwaiting hcall'),
    fun call' hcall' => h.cancelled call' (hwaiting hcall'), fun e he => ?_⟩
  rcases List.mem_append.1 he with he | he
  · exact h.handed e he
  · rw [List.mem_singleton.1 he]
    constructor
    · by_contra hpaused
      refine hundisturbed (h.paused ?_ call hcall)
      simpa using hpaused
    · by_contra hcancelled
      refine hundisturbed (h.cancelled call hcall ?_)
      simpa using hcancelled

theorem inv_act {c c' : Client} {a : GateAction} (h : c.Inv) (hstep : step c a c')
    (ha : c.Undisturbed a) : c'.Inv := by
  obtain ⟨rfl, henabled⟩ := hstep
  have hframe {b : ClientAction} (hpause : b ≠ .pause) (hresume : b ≠ .resume)
      (hexpire : ∀ call, b ≠ .expire call) : Inv { c with stub := ClientStub.act c.stub b } :=
    h.stub (a := b) rfl (fun _ h => h) (fun _ h => h) h.handed (fun heq => absurd heq hpause)
      (fun call _ heq => absurd heq (hexpire call)) fun heq => absurd heq hresume
  cases a with
  | sendInvoke encoded rest timeout => exact h.sendInvoke encoded rest timeout
  | sendEvent throws =>
      simp only [act, sendEvent]
      split
      · exact h
      · next hallowed =>
          split
          · exact h
          · split
            · exact h
            · refine ⟨h.bounded, h.waiting, h.paused, h.cancelled, fun e he => ?_⟩
              rcases List.mem_append.1 he with he | he
              · exact h.handed e he
              · rw [List.mem_singleton.1 he]
                exact ⟨by simpa using hallowed, rfl⟩
  | continued call throws =>
      cases throws with
      | true => exact h.connectFailed call
      | false => exact h.hand henabled (ha call rfl)
  | connectFailed call => exact h.connectFailed call
  | socket isOpen => exact ⟨h.bounded, h.waiting, h.paused, h.cancelled, h.handed⟩
  | result id => exact hframe (by simp) (by simp) (by simp)
  | error id => exact hframe (by simp) (by simp) (by simp)
  | reject id => exact hframe (by simp) (by simp) (by simp)
  | expire call =>
      refine h.stub (a := .expire call) rfl (fun _ h => h)
        (fun _ h => List.mem_append.2 (.inl h)) h.handed (fun heq => by cases heq) ?_
        fun heq => by cases heq
      intro call' hcall' heq
      cases heq
      exact List.mem_append.2 (.inr (List.mem_filter.2 ⟨hcall', decide_eq_true rfl⟩))
  | pause =>
      exact h.stub (a := .pause) rfl (fun _ h => h) (fun _ h => List.mem_append.2 (.inl h))
        h.handed (fun _ _ hcall => List.mem_append.2 (.inr hcall)) (fun _ _ heq => by cases heq)
        fun heq => by cases heq
  | resume =>
      exact h.stub (a := .resume) rfl (fun _ h => h) (fun _ h => h) h.handed
        (fun heq => by cases heq) (fun _ _ heq => by cases heq) fun _ => rfl

/-- When no call goes out that has waited through a pause or the end of its timer, nothing goes
out while processing is paused, and no call goes out that has been cancelled. -/
theorem gate_of_undisturbed {trace : List GateAction} {c : Client}
    (h : Run (restrict step Undisturbed) init trace c) :
    ∀ e ∈ c.handed, e.whilePaused = false ∧ e.afterCancel = false := by
  refine (h.state_invariant (P := Inv) ?_ ?_).handed
  · exact ⟨⟨by simp [init, Stub.init], by simp [init, Stub.init]⟩, by simp [init], by simp [init],
      by simp [init], by simp [init]⟩
  · rintro c a c' hinv ⟨hstep, hundisturbed⟩
    exact inv_act hinv hstep hundisturbed

/-- A call goes out, and another is paused while it waits and comes to nothing. -/
theorem gate_of_undisturbed_pause :
    (([.sendInvoke true false true, .continued 0 false, .sendInvoke true false true, .pause,
      .connectFailed 1] : List GateAction).foldl act init).handed = [⟨some 0, false, false⟩] ∧
    ∀ e ∈ (([.sendInvoke true false true, .continued 0 false, .sendInvoke true false true, .pause,
      .connectFailed 1] : List GateAction).foldl act init).handed,
      e.whilePaused = false ∧ e.afterCancel = false :=
  ⟨by decide, gate_of_undisturbed
    (.snoc (l := .connectFailed 1)
      (.snoc (l := .pause)
        (.snoc (l := .sendInvoke true false true)
          (.snoc (l := .continued 0 false)
            (.snoc (l := .sendInvoke true false true) .nil
              ⟨⟨rfl, trivial⟩, by simp [Undisturbed]⟩)
            ⟨⟨rfl, by decide⟩, by simp [Undisturbed, act, sendInvoke, init]⟩)
          ⟨⟨rfl, trivial⟩, by simp [Undisturbed]⟩)
        ⟨⟨rfl, trivial⟩, by simp [Undisturbed]⟩)
      ⟨⟨rfl, by decide⟩, by simp [Undisturbed]⟩)⟩

/-- A call goes out while processing is paused, and another one goes out in the next session,
though the pause has rejected both. -/
theorem gate_passed_after_pause :
    ∃ c, Run step init [.sendInvoke true false true, .sendInvoke true false true, .pause,
        .continued 0 false, .resume, .continued 1 false] c ∧
      c.handed = [⟨some 0, true, true⟩, ⟨some 1, false, true⟩] := by
  refine ⟨_, .snoc (.snoc (.snoc (.snoc (.snoc (.snoc .nil ⟨rfl, trivial⟩) ⟨rfl, trivial⟩)
    ⟨rfl, trivial⟩) ⟨rfl, ?_⟩) ⟨rfl, trivial⟩) ⟨rfl, ?_⟩, ?_⟩
  · decide
  · decide
  · decide

end Client

end Esnacc.Ts
