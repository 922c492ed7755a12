import Mathlib

/-!
What `TSASN1Base.receive` returns for a decoded message. What the handlers of an application,
the converters and the log do is given by a value of `World`; an exception is the left side of
`Except`.
-/

namespace Esnacc.Ts

/-- The invoke id of an event. -/
def eventInvokeID : ℤ := 99999

/-- What is thrown; the two are told apart by `instanceof`. -/
inductive Thrown
  | asnRequestError
  | other
  deriving DecidableEq, Repr

/-- `ROSEInvoke`, without its argument. -/
structure ROSEInvoke where
  invokeID : ℤ
  operationID : ℤ
  operationName : Option String
  deriving DecidableEq, Repr

/-- `ROSEMessage`; `empty` has none of its members. -/
inductive ROSEMessage
  | invoke (invoke : ROSEInvoke)
  | result (invokeID : ℤ)
  | error (invokedID : ℤ)
  | reject (invokedID : Option ℤ)
  | empty
  deriving DecidableEq, Repr

/-- What is sent back, with its invoke id. -/
inductive Response
  | result (invokeID : ℤ)
  | error (invokedID : ℤ)
  | reject (invokedID : ℤ)
  deriving DecidableEq, Repr

def Response.invokeID : Response → ℤ
  | result id | error id | reject id => id

/-- How the `switch` that is generated for a module treats an operation. -/
inductive OperationKind
  | invoke
  | event
  deriving DecidableEq, Repr

/-- A registered operation, with the `switch` of its module. -/
structure Handler where
  operationID : ℤ
  operations : ℤ → Option OperationKind

structure Transport where
  roseProcessingAllowed : Bool
  handlersByID : ℤ → Option Handler
  handlersByName : String → Option Handler

/-- What a converter does. -/
inductive Conversion
  | done
  | undefined
  | throws
  deriving DecidableEq, Repr

/-- What the method of an application does. -/
inductive MethodResult
  | value
  | asnRequestError
  | nothing
  | throws (error : Thrown)
  deriving DecidableEq, Repr

/-- What happens outside the stub while a message is handled. -/
structure World where
  logTransportThrows : Bool
  handleEvents : Bool
  decodeArgument : Conversion
  method : Option MethodResult
  isDedicatedObject : Bool
  encodeResult : Conversion
  encodeError : Conversion
  encodeMessage : Conversion
  encodeToTransportThrows : Bool
  deriving DecidableEq, Repr

section

variable (t : Transport) (w : World)

def createROSEError (invoke : ROSEInvoke) : Except Thrown Response :=
  match w.encodeError with
  | .done => .ok (.error invoke.invokeID)
  | .undefined => .ok (.reject invoke.invokeID)
  | .throws => .error .other

def createROSEResult (invoke : ROSEInvoke) : Except Thrown Response :=
  if !w.isDedicatedObject then .error .other
  else
    match w.encodeResult with
    | .done => .ok (.result invoke.invokeID)
    | .undefined => .ok (.reject invoke.invokeID)
    | .throws => .error .other

/-- `handleOnEvent` returns nothing. -/
def handleOnEvent : Except Thrown Unit :=
  match w.decodeArgument with
  | .done =>
      match w.method with
      | some (.throws e) => .error e
      | _ => .ok ()
  | .undefined => .ok ()
  | .throws => .error .other

def handleOnInvoke (invoke : ROSEInvoke) : Except Thrown Response :=
  match w.decodeArgument with
  | .done =>
      match w.method with
      | some (.throws e) => .error e
      | some .asnRequestError => createROSEError w invoke
      | some .value => createROSEResult w invoke
      | some .nothing | none => .ok (.reject invoke.invokeID)
  | .undefined => .ok (.reject invoke.invokeID)
  | .throws => .error .other

/-- The generated `onEvent`: an event may also be queued. -/
def onEvent : Except Thrown (Option Response) :=
  if !w.handleEvents then .ok none else (handleOnEvent w).map fun _ => none

/-- The generated `onInvoke`. -/
def onInvoke (handler : Handler) (invoke : ROSEInvoke) : Except Thrown (Option Response) :=
  match handler.operations invoke.operationID with
  | some .invoke => (handleOnInvoke w invoke).map some
  | some .event => onEvent w
  | none => .ok (some (.reject invoke.invokeID))

/-- The handler, and the operation id it is called with. -/
def findHandler (invoke : ROSEInvoke) : Option (Handler × ROSEInvoke) :=
  match t.handlersByID invoke.operationID with
  | some handler => some (handler, invoke)
  | none =>
      match invoke.operationName with
      | none => none
      | some name =>
          if name = "" then none
          else (t.handlersByName name).map fun handler =>
            (handler, { invoke with operationID := handler.operationID })

def onROSEInvoke (invoke : ROSEInvoke) : Except Thrown (Option Response) :=
  match findHandler t invoke with
  | none => .ok (some (.reject invoke.invokeID))
  | some (handler, invoke) =>
      match onInvoke w handler invoke with
      | .ok result => .ok result
      | .error .asnRequestError => (createROSEError w invoke).map some
      | .error .other => .ok (some (.reject invoke.invokeID))

/-- `handleResult`, for a message that came in a ROSE envelope. -/
def handleResult (result : Option Response) : Except Thrown (Option Response) :=
  match result with
  | none => .ok none
  | some response =>
      match w.encodeMessage with
      | .throws => .error .other
      | .undefined => .ok none
      | .done => if w.encodeToTransportThrows then .error .other else .ok (some response)

/-- What stands between `try` and `catch` in `receiveHandleROSEMessage`. -/
def dispatch (message : ROSEMessage) : Except Thrown (Option Response) :=
  if w.logTransportThrows then .error .other
  else
    match message with
    | .invoke invoke =>
        if !t.roseProcessingAllowed then .ok (some (.reject invoke.invokeID))
        else onROSEInvoke t w invoke
    | .result _ | .error _ | .reject _ => .ok none
    | .empty => .ok (some (.reject 0))

def receiveHandleROSEMessage (message : ROSEMessage) : Except Thrown (Option Response) :=
  match dispatch t w message with
  | .ok result => handleResult w result
  | .error _ => handleResult w (some (.reject 0))

/-- One reply to an invoke, under its id, and none to anything else. -/
def OneReply (message : ROSEMessage) : Prop :=
  match message with
  | .invoke invoke =>
      if invoke.invokeID = eventInvokeID then receiveHandleROSEMessage t w message = .ok none
      else ∃ response, receiveHandleROSEMessage t w message = .ok (some response) ∧
        response.invokeID = invoke.invokeID
  | .result _ | .error _ | .reject _ => receiveHandleROSEMessage t w message = .ok none
  | .empty => True

/-! ### When there is one reply -/

/-- The operation of the generated code that an invoke comes to. -/
def operationOf (invoke : ROSEInvoke) : Option OperationKind :=
  if t.roseProcessingAllowed then
    (findHandler t invoke).bind fun r => r.1.operations r.2.operationID
  else none

/-- What the handling of an event throws. -/
def eventThrows : Option Thrown :=
  if w.handleEvents then
    match w.decodeArgument, w.method with
    | .throws, _ => some .other
    | .done, some (.throws e) => some e
    | _, _ => none
  else none

/-- What the handling of an invoke throws when it is an `AsnRequestError`. -/
def invokeThrowsAsnRequestError : Prop :=
  w.decodeArgument = .done ∧ w.method = some (.throws .asnRequestError)

/-- The catch-all is come to, which has no invoke id: the log throws, or the encoding of an
`AsnRequestError` that has been thrown. -/
def CatchAll (invoke : ROSEInvoke) : Prop :=
  w.logTransportThrows ∨ w.encodeError = .throws ∧
    (operationOf t invoke = some .invoke ∧ invokeThrowsAsnRequestError w ∨
      operationOf t invoke = some .event ∧ eventThrows w = some .asnRequestError)

/-- An event is handled, or queued. -/
def Silent (invoke : ROSEInvoke) : Prop :=
  w.logTransportThrows = false ∧ operationOf t invoke = some .event ∧ eventThrows w = none

/-- The condition for one reply. -/
def Regular (message : ROSEMessage) : Prop :=
  match message with
  | .invoke invoke =>
      if invoke.invokeID = eventInvokeID then Silent t w invoke ∨ w.encodeMessage = .undefined
      else ¬Silent t w invoke ∧ (CatchAll t w invoke → invoke.invokeID = 0) ∧
        w.encodeMessage = .done ∧ w.encodeToTransportThrows = false
  | .result _ | .error _ | .reject _ =>
      w.logTransportThrows = false ∨ w.encodeMessage = .undefined
  | .empty => True

end

variable {t : Transport} {w : World}

theorem handleResult_eq_none {result : Option Response} :
    handleResult w result = .ok none ↔ result = none ∨ w.encodeMessage = .undefined := by
  cases result with
  | none => simp [handleResult]
  | some response =>
      cases hmessage : w.encodeMessage with
      | done => cases hsend : w.encodeToTransportThrows <;> simp [handleResult, hmessage, hsend]
      | undefined => simp [handleResult, hmessage]
      | throws => simp [handleResult, hmessage]

theorem handleResult_eq_some {result : Option Response} {response : Response} :
    handleResult w result = .ok (some response) ↔
      result = some response ∧ w.encodeMessage = .done ∧ w.encodeToTransportThrows = false := by
  cases result with
  | none => simp [handleResult]
  | some response' =>
      simp only [handleResult]
      cases w.encodeMessage with
      | done => cases w.encodeToTransportThrows <;> simp
      | undefined => simp
      | throws => simp

theorem invokeID_of_findHandler {invoke invoke' : ROSEInvoke} {handler : Handler}
    (h : findHandler t invoke = some (handler, invoke')) : invoke'.invokeID = invoke.invokeID := by
  rw [findHandler] at h
  split at h
  · cases h
    rfl
  · split at h
    · cases h
    · split at h
      · cases h
      · obtain ⟨_, _, heq⟩ := Option.map_eq_some_iff.1 h
        cases heq
        rfl

/-- What is sent back for an invoke, before it is encoded. -/
def replyOf (t : Transport) (w : World) (invoke : ROSEInvoke) : Option Response :=
  match dispatch t w (.invoke invoke) with
  | .ok result => result
  | .error _ => some (.reject 0)

theorem receive_eq (invoke : ROSEInvoke) :
    receiveHandleROSEMessage t w (.invoke invoke) = handleResult w (replyOf t w invoke) := by
  rw [receiveHandleROSEMessage, replyOf]
  cases dispatch t w (.invoke invoke) <;> rfl

theorem handleOnInvoke_ok {invoke : ROSEInvoke} {response : Response}
    (h : handleOnInvoke w invoke = .ok response) : response.invokeID = invoke.invokeID := by
  have herror (h : createROSEError w invoke = .ok response) :
      response.invokeID = invoke.invokeID := by
    rw [createROSEError] at h
    split at h <;> cases h <;> rfl
  have hresult (h : createROSEResult w invoke = .ok response) :
      response.invokeID = invoke.invokeID := by
    rw [createROSEResult] at h
    split at h
    · cases h
    · split at h <;> cases h <;> rfl
  rw [handleOnInvoke] at h
  split at h
  · split at h
    · cases h
    · exact herror h
    · exact hresult h
    · cases h
      rfl
    · cases h
      rfl
  · cases h
    rfl
  · cases h

theorem handleOnInvoke_asnRequestError {invoke : ROSEInvoke} :
    handleOnInvoke w invoke = .error .asnRequestError ↔ invokeThrowsAsnRequestError w := by
  have herror : createROSEError w invoke ≠ .error .asnRequestError := by
    rw [createROSEError]
    split <;> simp
  have hresult : createROSEResult w invoke ≠ .error .asnRequestError := by
    rw [createROSEResult]
    split
    · simp
    · split <;> simp
  rw [handleOnInvoke, invokeThrowsAsnRequestError]
  cases w.decodeArgument with
  | done =>
      rcases w.method with _ | _ | _ | _ | e
      case none => simp
      case some.value => simpa using hresult
      case some.asnRequestError => simpa using herror
      case some.nothing => simp
      case some.throws => simp
  | undefined => simp
  | throws => simp

theorem onEvent_eq (w : World) :
    onEvent w = match eventThrows w with
      | some e => .error e
      | none => .ok none := by
  simp only [onEvent, eventThrows, handleOnEvent]
  cases w.handleEvents with
  | false => rfl
  | true =>
      rcases w.decodeArgument with _ | _ | _
      case done => rcases w.method with _ | _ | _ | _ | e <;> rfl
      case undefined => rcases w.method with _ | _ | _ | _ | e <;> rfl
      case throws => rfl

/-- What `onROSEInvoke` makes of an exception. -/
def caught (w : World) (invoke : ROSEInvoke) : Thrown → Except Thrown (Option Response)
  | .asnRequestError => (createROSEError w invoke).map some
  | .other => .ok (some (.reject invoke.invokeID))

theorem caught_spec (w : World) (invoke : ROSEInvoke) (e : Thrown) :
    (w.encodeError = .throws ∧ e = .asnRequestError ∧ caught w invoke e = .error .other) ∨
      ¬(w.encodeError = .throws ∧ e = .asnRequestError) ∧
        ∃ response, caught w invoke e = .ok (some response) ∧
          response.invokeID = invoke.invokeID := by
  cases e with
  | other => exact .inr ⟨by simp, _, rfl, rfl⟩
  | asnRequestError =>
      rw [caught, createROSEError]
      rcases w.encodeError with _ | _ | _
      case done => exact .inr ⟨by simp, _, rfl, rfl⟩
      case undefined => exact .inr ⟨by simp, _, rfl, rfl⟩
      case throws => exact .inl ⟨rfl, rfl, rfl⟩

/-- The result of `onInvoke` with the `catch` behind it. -/
theorem onROSEInvoke_eq {invoke invoke' : ROSEInvoke} {handler : Handler}
    (h : findHandler t invoke = some (handler, invoke')) :
    onROSEInvoke t w invoke = match onInvoke w handler invoke' with
      | .ok result => .ok result
      | .error e => caught w invoke' e := by
  rw [onROSEInvoke, h]
  dsimp only
  rcases onInvoke w handler invoke' with (_ | _) | result <;> rfl

/-- An invoke has no reply if it comes to an event that is handled; otherwise the reply has its
id, unless it comes from the catch-all. -/
theorem replyOf_spec (invoke : ROSEInvoke) :
    (Silent t w invoke ∧ replyOf t w invoke = none) ∨
      (¬Silent t w invoke ∧ CatchAll t w invoke ∧ replyOf t w invoke = some (.reject 0)) ∨
      (¬Silent t w invoke ∧ ¬CatchAll t w invoke ∧
        ∃ response, replyOf t w invoke = some response ∧
          response.invokeID = invoke.invokeID) := by
  rw [replyOf, dispatch]
  by_cases hlog : w.logTransportThrows = true
  · exact .inr (.inl ⟨by simp [Silent, hlog], by simp [CatchAll, hlog], by rw [if_pos hlog]⟩)
  rw [if_neg hlog]
  have hlog' : w.logTransportThrows = false := by simpa using hlog
  by_cases hallowed : t.roseProcessingAllowed = true
  swap
  · have hnone : operationOf t invoke = none := if_neg hallowed
    exact .inr (.inr ⟨by simp [Silent, hnone], by simp [CatchAll, hnone, hlog'],
      .reject invoke.invokeID, by simp [hallowed], rfl⟩)
  have hdispatch : (!t.roseProcessingAllowed) = false := by simp [hallowed]
  rw [hdispatch, if_neg Bool.false_ne_true]
  rcases hfind : findHandler t invoke with _ | ⟨handler, invoke'⟩
  · have hnone : operationOf t invoke = none := by
      rw [operationOf, if_pos hallowed, hfind]
      rfl
    exact .inr (.inr ⟨by simp [Silent, hnone], by simp [CatchAll, hnone, hlog'],
      _, by rw [onROSEInvoke, hfind], rfl⟩)
  have hid := invokeID_of_findHandler hfind
  have hoperation : operationOf t invoke = handler.operations invoke'.operationID := by
    rw [operationOf, if_pos hallowed, hfind]
    rfl
  rw [onROSEInvoke_eq hfind, onInvoke]
  rcases hkind : handler.operations invoke'.operationID with _ | _ | _
  case none =>
    rw [hkind] at hoperation
    exact .inr (.inr ⟨by simp [Silent, hoperation], by simp [CatchAll, hoperation, hlog'],
      _, rfl, hid⟩)
  case some.invoke =>
    rw [hkind] at hoperation
    have hsilent : ¬Silent t w invoke := by simp [Silent, hoperation]
    have hcatch : CatchAll t w invoke ↔
        w.encodeError = .throws ∧ handleOnInvoke w invoke' = .error .asnRequestError := by
      simp [CatchAll, hlog', hoperation, handleOnInvoke_asnRequestError]
    rcases hhandle : handleOnInvoke w invoke' with e | response
    · rcases caught_spec w invoke' e with ⟨hencode, rfl, heq⟩ | ⟨hno, response, heq, hresponse⟩
      · exact .inr (.inl ⟨hsilent, hcatch.2 ⟨hencode, hhandle⟩, by simp [Except.map, heq]⟩)
      · refine .inr (.inr ⟨hsilent, ?_, response, by simp [Except.map, heq],
          hresponse.trans hid⟩)
        rw [hcatch, hhandle]
        rintro ⟨hencode, he⟩
        exact hno ⟨hencode, by simpa using he⟩
    · refine .inr (.inr ⟨hsilent, ?_, response, rfl, (handleOnInvoke_ok hhandle).trans hid⟩)
      rw [hcatch, hhandle]
      simp
  case some.event =>
    rw [hkind] at hoperation
    have hcatch : CatchAll t w invoke ↔
        w.encodeError = .throws ∧ eventThrows w = some .asnRequestError := by
      simp [CatchAll, hlog', hoperation]
    dsimp only
    rw [onEvent_eq]
    rcases hthrows : eventThrows w with _ | e
    · exact .inl ⟨⟨hlog', hoperation, hthrows⟩, rfl⟩
    · have hsilent : ¬Silent t w invoke := by simp [Silent, hthrows]
      rcases caught_spec w invoke' e with ⟨hencode, rfl, heq⟩ | ⟨hno, response, heq, hresponse⟩
      · exact .inr (.inl ⟨hsilent, hcatch.2 ⟨hencode, hthrows⟩, by simp [heq]⟩)
      · refine .inr (.inr ⟨hsilent, ?_, response, by simp [heq], hresponse.trans hid⟩)
        rw [hcatch, hthrows]
        rintro ⟨hencode, he⟩
        exact hno ⟨hencode, by simpa using he⟩

/-- There is one reply to every invoke, and none to anything else, exactly in a regular case. -/
theorem oneReply_iff (t : Transport) (w : World) (message : ROSEMessage) :
    OneReply t w message ↔ Regular t w message := by
  have hresponse (h : dispatch t w message = if w.logTransportThrows then .error .other
      else .ok none) : receiveHandleROSEMessage t w message = .ok none ↔
        w.logTransportThrows = false ∨ w.encodeMessage = .undefined := by
    rw [receiveHandleROSEMessage, h]
    cases hlog : w.logTransportThrows with
    | false => simp [handleResult]
    | true => simp [handleResult_eq_none]
  cases message with
  | empty => exact Iff.rfl
  | result id => exact hresponse rfl
  | error id => exact hresponse rfl
  | reject id => exact hresponse rfl
  | invoke invoke =>
      rw [OneReply, Regular]
      simp only [receive_eq, handleResult_eq_none, handleResult_eq_some]
      rcases @replyOf_spec t w invoke with ⟨hsilent, hreply⟩ | ⟨hsilent, hcatch, hreply⟩ |
        ⟨hsilent, hcatch, response, hreply, hid⟩
      · simp [hreply, hsilent]
      · simp only [hreply, hsilent, hcatch, false_or, not_false_eq_true, true_and, forall_const,
          Option.some.injEq, reduceCtorEq]
        split
        · rfl
        · constructor
          · rintro ⟨_, ⟨rfl, hencode⟩, hid⟩
            exact ⟨hid.symm, hencode⟩
          · rintro ⟨hid, hencode⟩
            exact ⟨_, ⟨rfl, hencode⟩, hid.symm⟩
      · simp only [hreply, hsilent, hcatch, false_or, not_false_eq_true, true_and,
          false_implies, Option.some.injEq, reduceCtorEq]
        split
        · rfl
        · constructor
          · rintro ⟨_, ⟨rfl, hencode⟩, -⟩
            exact hencode
          · intro hencode
            exact ⟨_, ⟨rfl, hencode⟩, hid⟩

/-- While processing is paused, an event is answered. -/
theorem event_answered_while_paused :
    receiveHandleROSEMessage ⟨false, fun _ => none, fun _ => none⟩
        ⟨false, true, .done, none, true, .done, .done, .done, false⟩
        (.invoke ⟨99999, 1, none⟩) = .ok (some (.reject 99999)) ∧
      ¬OneReply ⟨false, fun _ => none, fun _ => none⟩
        ⟨false, true, .done, none, true, .done, .done, .done, false⟩
        (.invoke ⟨99999, 1, none⟩) := by
  refine ⟨rfl, ?_⟩
  intro h
  cases h

end Esnacc.Ts
