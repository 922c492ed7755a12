import Esnacc.Ts.Settlement

/-!
An invoke over REST: its response goes through the receive path of the sockets, which answers what
it cannot read instead of throwing. Only an answer with the id of the invoke, or an exception,
completes the pending entry.
-/

namespace Esnacc.Ts

open Stub

/-- What the body of a response comes to: it is no JSON (or cannot be read at all), decoding it
throws, it is no ROSE envelope, or it is one. -/
inductive Body
  | unreadable
  | decodeThrows
  | undecodable
  | message (message : ROSEMessage)
  deriving DecidableEq, Repr

/-- How an HTTP request ends: `encodeToTransport`, the log or `fetch` throws, or there is a
response, whose status goes into a reject only. -/
inductive HttpOutcome
  | failure
  | response (status : ℕ) (body : Body)
  deriving DecidableEq, Repr

section

variable (t : Transport) (w : World)

/-- What `receiveHandleROSEMessage` does to the pending invokes. -/
def settleMessage (s : Stub Unit) (message : ROSEMessage) : Stub Unit :=
  if w.logTransportThrows then s
  else
    match message with
    | .result invokeID => s.onROSEResult () invokeID
    | .error invokedID => s.onROSEError () invokedID
    | .reject invokedID => s.onROSEReject () invokedID
    | .invoke _ | .empty => s

/-- `receive`, for a body that could be read. -/
def receive (s : Stub Unit) : Body → Stub Unit × Except Thrown (Option Response)
  | .unreadable | .decodeThrows => (s, .error .other)
  | .undecodable => (s, handleResult w (some (.reject 0)))
  | .message message => (settleMessage w s message, receiveHandleROSEMessage t w message)

/-- `onROSEReject` with a reject for the invoke of the call. -/
def rejectInvoke (s : Stub Unit) (id : ℤ) (call : ℕ) : Stub Unit := s.take id (.unsent call)

/-- `handleFetch`: what is thrown before there is a response is thrown again. -/
def handleFetch (s : Stub Unit) (id : ℤ) (call : ℕ) : HttpOutcome → Stub Unit × Except Thrown Unit
  | .failure => (s, .error .other)
  | .response _ body =>
      match receive t w s body with
      | (s, .ok _) => (s, .ok ())
      | (s, .error _) => (rejectInvoke s id call, .ok ())

/-- `sendStateLess`, when the request is finished. -/
def sendStateLess (s : Stub Unit) (id : ℤ) (call : ℕ) (outcome : HttpOutcome) : Stub Unit :=
  match handleFetch t w s id call outcome with
  | (s, .ok _) => s
  | (s, .error _) => rejectInvoke s id call

/-- The entry of the call is gone, and its promise is settled. -/
def Completed (s : Stub Unit) (call : ℕ) : Prop :=
  call ∈ s.settled.map Prod.fst ∧ ∀ e ∈ s.pendingInvokes, e.2.call ≠ call

/-- The message is an answer to the invoke. -/
def Answers (id : ℤ) : ROSEMessage → Prop
  | .result invokeID => invokeID = id
  | .error invokedID => invokedID = id
  | .reject invokedID => invokedID = some id
  | .invoke _ | .empty => False

/-- Something is sent back for the message. -/
def IsAnswered (message : ROSEMessage) : Prop :=
  w.logTransportThrows = true ∨
    match message with
    | .invoke invoke => ¬Silent t w invoke
    | .empty => True
    | .result _ | .error _ | .reject _ => False

/-- What is sent back cannot be sent: the encoding throws. -/
def ReplyThrows : Prop :=
  w.encodeMessage = .throws ∨ w.encodeMessage = .done ∧ w.encodeToTransportThrows = true

/-- The request fails, or the body cannot be read or decoded by an exception, or it is an answer
to the invoke and the log does not throw; or else a reply is made that cannot be encoded. -/
def Completes (id : ℤ) : HttpOutcome → Prop
  | .failure => True
  | .response _ .unreadable | .response _ .decodeThrows => True
  | .response _ .undecodable => ReplyThrows w
  | .response _ (.message message) =>
      w.logTransportThrows = false ∧ Answers id message ∨
        IsAnswered t w message ∧ ReplyThrows w

end

variable {t : Transport} {w : World}

theorem handleResult_isError {result : Option Response} :
    (∃ e, handleResult w result = .error e) ↔ result ≠ none ∧ ReplyThrows w := by
  cases result with
  | none => simp [handleResult]
  | some response =>
      cases hmessage : w.encodeMessage with
      | done =>
          cases hsend : w.encodeToTransportThrows <;>
            simp [handleResult, ReplyThrows, hmessage, hsend]
      | undefined => simp [handleResult, ReplyThrows, hmessage]
      | throws => simp [handleResult, ReplyThrows, hmessage]

theorem receiveHandleROSEMessage_isError (message : ROSEMessage) :
    (∃ e, receiveHandleROSEMessage t w message = .error e) ↔
      IsAnswered t w message ∧ ReplyThrows w := by
  have hquiet (hdispatch : dispatch t w message =
        if w.logTransportThrows then .error .other else .ok none)
      (hanswered : IsAnswered t w message ↔ w.logTransportThrows = true) :
      (∃ e, receiveHandleROSEMessage t w message = .error e) ↔
        IsAnswered t w message ∧ ReplyThrows w := by
    rw [receiveHandleROSEMessage, hdispatch, hanswered]
    cases hlog : w.logTransportThrows with
    | false => simp [handleResult]
    | true => simp [handleResult_isError]
  cases message with
  | invoke invoke =>
      rw [receive_eq, handleResult_isError]
      have hsilent : w.logTransportThrows = true → ¬Silent t w invoke := by
        intro hlog hsilent
        rw [hsilent.1] at hlog
        cases hlog
      have hanswered : IsAnswered t w (.invoke invoke) ↔ ¬Silent t w invoke :=
        ⟨fun h => h.elim hsilent id, .inr⟩
      rw [hanswered]
      rcases replyOf_spec (t := t) (w := w) invoke with
        ⟨hs, hnone⟩ | ⟨hs, -, hsome⟩ | ⟨hs, -, response, hsome, -⟩
      · rw [hnone]
        exact iff_of_false (fun h => h.1 rfl) fun h => h.1 hs
      · rw [hsome]
        exact and_congr_left fun _ => iff_of_true (Option.some_ne_none _) hs
      · rw [hsome]
        exact and_congr_left fun _ => iff_of_true (Option.some_ne_none _) hs
  | result invokeID => exact hquiet rfl (or_iff_left id)
  | error invokedID => exact hquiet rfl (or_iff_left id)
  | reject invokedID => exact hquiet rfl (or_iff_left id)
  | empty =>
      have hanswered : IsAnswered t w .empty := .inr trivial
      rw [receiveHandleROSEMessage, dispatch]
      cases w.logTransportThrows <;> simp [handleResult_isError, hanswered]

/-! ### What happens to the entry -/

/-- A message takes the entry of the invoke that it answers, or leaves the invokes as they are. -/
theorem settleMessage_cases (s : Stub Unit) (message : ROSEMessage) :
    (∃ other cause, settleMessage w s message = s.take other cause ∧
        w.logTransportThrows = false ∧ ∀ id, Answers id message ↔ other = id) ∨
      settleMessage w s message = s ∧
        ∀ id, ¬(w.logTransportThrows = false ∧ Answers id message) := by
  rw [settleMessage.eq_def]
  cases hlog : w.logTransportThrows with
  | true => exact .inr ⟨if_pos rfl, fun _ h => Bool.false_ne_true h.1.symm⟩
  | false =>
      rw [if_neg Bool.false_ne_true]
      cases message with
      | result invokeID => exact .inl ⟨invokeID, _, rfl, rfl, fun _ => Iff.rfl⟩
      | error invokedID => exact .inl ⟨invokedID, _, rfl, rfl, fun _ => Iff.rfl⟩
      | reject invokedID =>
          -- a reject without an id answers nothing
          cases invokedID with
          | none => exact .inr ⟨rfl, fun id h => absurd h.2.symm (Option.some_ne_none id)⟩
          | some invokedID =>
              exact .inl ⟨invokedID, _, rfl, rfl, fun _ => Option.some_inj⟩
      | invoke _ | empty => exact .inr ⟨rfl, fun _ h => h.2⟩

theorem filed_settleMessage {s : Stub Unit} (h : s.Filed) (message : ROSEMessage) :
    (settleMessage w s message).Filed := by
  rcases settleMessage_cases s message with ⟨other, cause, heq, -⟩ | ⟨heq, -⟩
  · rw [heq]
    exact h.take other cause
  · rwa [heq]

variable {s : Stub Unit} {id : ℤ} {call : ℕ} {timer : Bool}

/-- What is completed stays so. -/
theorem Completed.take (h : Completed s call) (other : ℤ) (cause : Cause Unit) :
    Completed (s.take other cause) call := by
  refine ⟨?_, fun e he => ?_⟩
  · rw [Stub.take]
    cases s.pendingInvokes.get other with
    | none => exact h.1
    | some p =>
        simp only [Stub.complete, List.map_append]
        exact List.mem_append_left _ h.1
  · rw [pendingInvokes_take] at he
    exact h.2 e (PendingInvokes.mem_delete.mp he).1

theorem Completed.settleMessage (h : Completed s call) (message : ROSEMessage) :
    Completed (settleMessage w s message) call := by
  rcases settleMessage_cases s message with ⟨other, cause, heq, -⟩ | ⟨heq, -⟩
  · rw [heq]
    exact h.take other cause
  · rwa [heq]

theorem completed_take (h : s.Filed) (hmem : (id, ⟨call, timer⟩) ∈ s.pendingInvokes)
    (cause : Cause Unit) : Completed (s.take id cause) call := by
  have hget := PendingInvokes.get_of_mem h.keys hmem
  refine ⟨?_, fun e he => ?_⟩
  · rw [take, hget]
    simp only [Stub.complete, List.map_append]
    exact List.mem_append_right _ List.mem_cons_self
  · rw [pendingInvokes_take] at he
    obtain ⟨he, hne⟩ := PendingInvokes.mem_delete.mp he
    exact h.call_ne hmem he hne

/-- The entry stays when another one is taken. -/
theorem mem_take (hmem : (id, ⟨call, timer⟩) ∈ s.pendingInvokes) {other : ℤ} (hne : other ≠ id)
    (cause : Cause Unit) : (id, ⟨call, timer⟩) ∈ (s.take other cause).pendingInvokes := by
  rw [pendingInvokes_take]
  exact PendingInvokes.mem_delete.mpr ⟨hmem, hne.symm⟩

/-- A message completes the call if it answers the invoke, and leaves the entry if not. -/
theorem settleMessage_spec (h : s.Filed) (hmem : (id, ⟨call, timer⟩) ∈ s.pendingInvokes)
    (message : ROSEMessage) :
    w.logTransportThrows = false ∧ Answers id message ∧
        Completed (settleMessage w s message) call ∨
      ¬(w.logTransportThrows = false ∧ Answers id message) ∧
        (id, ⟨call, timer⟩) ∈ (settleMessage w s message).pendingInvokes := by
  rcases settleMessage_cases s message with ⟨other, cause, heq, hlog, hanswers⟩ | ⟨heq, hno⟩
  · rw [heq, hanswers]
    by_cases hid : other = id
    · exact .inl ⟨hlog, hid, hid ▸ completed_take h hmem cause⟩
    · exact .inr ⟨fun hc => hid hc.2, mem_take hmem hid cause⟩
  · exact .inr ⟨hno id, heq.symm ▸ hmem⟩

theorem not_completed_of_mem (h : (id, ⟨call, timer⟩) ∈ s.pendingInvokes) : ¬Completed s call :=
  fun hc => hc.2 _ h rfl

/-- With its entry still there, the call is completed under the condition only. -/
theorem sendStateLess_iff (h : s.Filed) (hmem : (id, ⟨call, timer⟩) ∈ s.pendingInvokes)
    (outcome : HttpOutcome) :
    Completed (sendStateLess t w s id call outcome) call ↔ Completes t w id outcome := by
  have hreject : Completed (rejectInvoke s id call) call := completed_take h hmem _
  cases outcome with
  | failure => exact iff_of_true hreject trivial
  | response status body =>
      cases body with
      | unreadable => exact iff_of_true hreject trivial
      | decodeThrows => exact iff_of_true hreject trivial
      | undecodable =>
          have herror := @handleResult_isError w (some (.reject 0))
          rw [sendStateLess, handleFetch, receive.eq_def]
          cases hresult : handleResult w (some (.reject 0)) with
          | ok response =>
              rw [hresult] at herror
              exact iff_of_false (not_completed_of_mem hmem) fun hthrows =>
                (herror.mpr ⟨Option.some_ne_none _, hthrows⟩).elim fun _ he => by cases he
          | error e =>
              rw [hresult] at herror
              exact iff_of_true hreject (herror.mp ⟨e, rfl⟩).2
      | message message =>
          have herror := @receiveHandleROSEMessage_isError t w message
          rw [sendStateLess, handleFetch, receive.eq_def]
          dsimp only
          cases hresult : receiveHandleROSEMessage t w message with
          | ok response =>
              rw [hresult] at herror
              have hnot : ¬(IsAnswered t w message ∧ ReplyThrows w) := by
                intro hthrows
                obtain ⟨e, he⟩ := herror.mpr hthrows
                cases he
              rw [Completes, or_iff_left hnot]
              rcases settleMessage_spec (w := w) h hmem message with ⟨hlog, hid, hc⟩ | ⟨hno, hleft⟩
              · exact iff_of_true hc ⟨hlog, hid⟩
              · exact iff_of_false (not_completed_of_mem hleft) hno
          | error e =>
              rw [hresult] at herror
              refine iff_of_true ?_ (.inr (herror.mp ⟨e, rfl⟩))
              rcases settleMessage_spec (w := w) h hmem message with ⟨-, -, hc⟩ | ⟨-, hleft⟩
              · exact hc.take _ _
              · exact completed_take (filed_settleMessage h message) hleft _

theorem Completed.sendStateLess (h : Completed s call) (outcome : HttpOutcome) :
    Completed (sendStateLess t w s id call outcome) call := by
  cases outcome with
  | failure => exact h.take _ _
  | response status body =>
      have hbody : Completed (receive t w s body).1 call := by
        cases body with
        | unreadable => exact h
        | decodeThrows => exact h
        | undecodable => exact h
        | message message => exact h.settleMessage message
      rw [Ts.sendStateLess, handleFetch]
      cases hreceive : receive t w s body with
      | mk s' result =>
          rw [hreceive] at hbody
          cases result with
          | ok response => exact hbody
          | error e => exact hbody.take _ _

/-- When the request of a call is finished, whatever has happened since the call was made, the
call is completed if and only if it was before, or the outcome completes it. -/
theorem restInvoke_completed_iff {trace : List CallAction}
    (hrun : Transition.Run step init trace s)
    (hmade : (id, ⟨call, timer⟩) ∈ s.pendingInvokes ∨ Completed s call)
    (t : Transport) (w : World) (outcome : HttpOutcome) :
    Completed (sendStateLess t w s id call outcome) call ↔
      Completed s call ∨ Completes t w id outcome := by
  have hfiled : s.Filed := by
    refine hrun.state_invariant filed_init ?_
    intro s a s' hs hstep
    rw [hstep.1]
    exact filed_act hs a
  rcases hmade with hmem | hdone
  · rw [sendStateLess_iff hfiled hmem, or_iff_right (not_completed_of_mem hmem)]
  · exact iff_of_true (hdone.sendStateLess outcome) (.inl hdone)

/-- A client with one invoke over REST that has no timeout. -/
def oneInvoke : Stub Unit := init.act (.clientInvoke ⟨1, false⟩ .REST)

theorem run_oneInvoke :
    Transition.Run step init [.clientInvoke ⟨1, false⟩ .REST] oneInvoke :=
  .single ⟨rfl, fun _ h => by cases h⟩

/-- Nothing throws, and everything can be encoded. -/
def quietWorld : World := ⟨false, true, .done, none, true, .done, .done, .done, false⟩

def noHandlers : Transport := ⟨true, fun _ => none, fun _ => none⟩

/-- The result of the invoke. -/
theorem restInvoke_completed_result :
    Completed (sendStateLess noHandlers quietWorld oneInvoke 1 0 (.response 200
      (.message (.result 1)))) 0 :=
  (@restInvoke_completed_iff oneInvoke 1 0 false _ run_oneInvoke (.inl List.mem_cons_self)
    noHandlers quietWorld _).mpr (.inr (.inl ⟨rfl, rfl⟩))

/-- JSON that is no ROSE envelope, such as the page of a proxy. -/
theorem not_restInvoke_completed :
    ¬ ∀ (t : Transport) (w : World) (outcome : HttpOutcome),
      Completed (sendStateLess t w oneInvoke 1 0 outcome) 0 := by
  intro h
  have hmem : (1, ⟨0, false⟩) ∈ oneInvoke.pendingInvokes := List.mem_cons_self
  exact not_completed_of_mem hmem (h noHandlers quietWorld (.response 502 .undecodable))

end Esnacc.Ts
