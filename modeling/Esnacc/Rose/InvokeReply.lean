import Esnacc.Rose.WorkerPools
import Esnacc.Runtime.Exception
import Esnacc.Runtime.Word
import Esnacc.Lib.BitString

/-!
The server side of an invoke: `OnInvokeMessage` with what it calls to build a
reply. The handlers of the application, the encoder of a message and the outcome
of asking a worker pool are given from outside; what is modelled is which of them
is asked, what is made of their answers, and what is sent.
-/

namespace Esnacc.InvokeReply

open BitString WorkerPools

/-! ### Result codes -/

/-- `ERoseResult`, a `long`. -/
abbrev RoseResult := ℤ

def ROSE_NOERROR : RoseResult := 0
def ROSE_TE_SHUTDOWN : RoseResult := 0x2
def ROSE_TE_TIMEOUT : RoseResult := 0x3
def ROSE_TE_ENCODE_FAILED : RoseResult := 0x4
def ROSE_REJECT_UNKNOWNOPERATION : RoseResult := 0x100
def ROSE_REJECT_MISTYPEDARGUMENT : RoseResult := 0x200
def ROSE_REJECT_FUNCTIONMISSING : RoseResult := 0x300
def ROSE_REJECT_INVALIDSESSIONID : RoseResult := 0x500
def ROSE_REJECT_AUTHENTICATIONINCOMPLETE : RoseResult := 0x700
def ROSE_REJECT_AUTHENTICATIONFAILED : RoseResult := 0x800
def ROSE_REJECT_AUTHENTICATION_SERVER_BUSY : RoseResult := 0xA00
def ROSE_REJECT_AUTHENTICATION_USER_TEMPORARY_LOCKED_OUT : RoseResult := 0xB00
def ROSE_REJECT_AUTHENTICATION_USER_LOCKED_OUT : RoseResult := 0xC00
def ROSE_REJECT_ARGUMENT_MISSING : RoseResult := 0xD00
def ROSE_REJECT_QUEUE_FULL : RoseResult := 0xF00

/-! ### Messages -/

inductive InvokeProblem
  | unrecognisedOperation | mistypedArgument | resourceLimitation | invalidSessionID
  | authenticationIncomplete | authenticationFailed
  deriving DecidableEq, Repr

/-- `invokeID` has been read as an `AsnIntType`, which is 32 bits wide. -/
structure ROSEInvoke where
  invokeID : BitVec 32
  sessionID : Option String
  deriving DecidableEq, Repr

/-- What a ROSE message in answer to an invoke holds. `α` is the type of the
results, errors and authentication headers. -/
inductive Reply (α : Type)
  | result (invokeID : BitVec 32) (value : α)
  | error (invokedID : BitVec 32) (value : α)
  | reject (invokedID : BitVec 32) (problem : InvokeProblem) (details : String)
      (sessionID : Option String) (authentication : Option α)
  deriving DecidableEq, Repr

def Reply.invokeID {α : Type} : Reply α → BitVec 32
  | .result id _ => id
  | .error id _ => id
  | .reject id _ _ _ _ => id

/-- A session has one of these once the first message was looked at: messages in
an unknown encoding are not dispatched, and no caller can set that value again. -/
inductive TransportEncoding
  | BER | JSON | JSON_NO_HEADING
  deriving DecidableEq, Repr

/-- The octets of an encoded message, of which there is always at least one. -/
abbrev Text := {text : List Octet // text ≠ []}

/-- The encoder. Encoding the value of the application may throw. -/
structure Encoder (α : Type) where
  transportEncoding : TransportEncoding
  encodeValue : Reply α → Except SnaccException Text
  encodeReject : Reply α → Text

/-- The part of `SnaccInvokeContext` that a handler sets. -/
structure InvokeContext (α : Type) where
  lRejectResult : RoseResult
  pRejectAuth : Option α
  bResponseIsError : Bool
  deriving DecidableEq, Repr

def InvokeContext.new {α : Type} : InvokeContext α := ⟨0, none, false⟩

/-! ### Encoding -/

section Encoding

variable {α : Type}

/-- `J%07zd`. -/
def getJsonLengthPrefix (len : ℕ) : RoseResult × List Octet :=
  if 9999999 < len then (ROSE_TE_ENCODE_FAILED, [])
  else (ROSE_NOERROR,
    0x4A :: ([6, 5, 4, 3, 2, 1, 0].map fun i => BitVec.ofNat 8 (0x30 + len / 10 ^ i % 10)))

/-- The end that `EncodeResult`, `EncodeError` and `EncodeReject` have in common:
the result code and the new `strResponse`. A text that is too long for the length
prefix stays as it is. -/
def frame (enc : Encoder α) (text : Text) : RoseResult × List Octet :=
  if enc.transportEncoding = .JSON then
    let p := getJsonLengthPrefix text.val.length
    (p.1, if p.1 = ROSE_NOERROR then p.2 ++ text.val else text.val)
  else (ROSE_NOERROR, text.val)

theorem frame_ne_nil (enc : Encoder α) (text : Text) : (frame enc text).2 ≠ [] := by
  unfold frame
  split
  · dsimp only
    split
    · simp [text.property]
    · exact text.property
  · exact text.property

def encodeResult (enc : Encoder α) (uiInvokeID : BitVec 32) (value : α) :
    Except SnaccException (RoseResult × List Octet) :=
  (enc.encodeValue (.result uiInvokeID value)).map (frame enc)

def encodeError (enc : Encoder α) (uiInvokeID : BitVec 32) (value : α) :
    Except SnaccException (RoseResult × List Octet) :=
  (enc.encodeValue (.error uiInvokeID value)).map (frame enc)

/-- The invoke id of an event. -/
def eventID : BitVec 32 := 99999

/-- `EncodeRejectInvoke`: the result code and the new `strResponse`. -/
def encodeRejectInvoke (enc : Encoder α) (uiInvokeID : BitVec 32) (problem : InvokeProblem)
    (szError : String) (szSessionID : Option String) (pAuthHeader : Option α)
    (strResponse : List Octet) : RoseResult × List Octet :=
  if uiInvokeID = eventID then (0, strResponse)
  else frame enc (enc.encodeReject
    (.reject uiInvokeID problem szError szSessionID pAuthHeader))

/-- The problem, the detail text and whether the authentication header goes along. -/
def rejectProblem (lProtocolResult : RoseResult) : InvokeProblem × String × Bool :=
  if lProtocolResult = ROSE_REJECT_UNKNOWNOPERATION then
    (.unrecognisedOperation, "unrecognisedOperation", false)
  else if lProtocolResult = ROSE_REJECT_MISTYPEDARGUMENT then
    (.mistypedArgument, "mistypedArgument", false)
  else if lProtocolResult = ROSE_REJECT_FUNCTIONMISSING then
    (.unrecognisedOperation, "functionMissing", false)
  else if lProtocolResult = ROSE_REJECT_INVALIDSESSIONID then
    (.invalidSessionID, "invalidSessionID", false)
  else if lProtocolResult = ROSE_REJECT_AUTHENTICATIONFAILED then
    (.authenticationFailed, "authenticationFailed", true)
  else if lProtocolResult = ROSE_REJECT_AUTHENTICATIONINCOMPLETE then
    (.authenticationIncomplete, "authenticationIncomplete", true)
  else if lProtocolResult = ROSE_REJECT_AUTHENTICATION_USER_TEMPORARY_LOCKED_OUT then
    (.authenticationFailed, "temporaryLockedOut", true)
  else if lProtocolResult = ROSE_REJECT_AUTHENTICATION_USER_LOCKED_OUT then
    (.authenticationFailed, "lockedOut", true)
  else if lProtocolResult = ROSE_REJECT_AUTHENTICATION_SERVER_BUSY then
    (.authenticationFailed, "serverBusy", true)
  else if lProtocolResult = ROSE_REJECT_ARGUMENT_MISSING then
    (.mistypedArgument, "argumentMissing", false)
  else if lProtocolResult = ROSE_REJECT_QUEUE_FULL then
    (.resourceLimitation, "queueFull", false)
  else if lProtocolResult = ROSE_TE_ENCODE_FAILED then
    (.resourceLimitation, "responseIsTooBig", false)
  else (.unrecognisedOperation,
    "otherError: 0x" ++ String.ofList (Nat.toDigits 16 (toUlong lProtocolResult)), false)

def encodeInvokeRejectResponse (enc : Encoder α) (invoke : ROSEInvoke)
    (lProtocolResult : RoseResult) (ctx : InvokeContext α) (strResponse : List Octet) :
    RoseResult × List Octet :=
  let p := rejectProblem lProtocolResult
  let encoded := encodeRejectInvoke enc invoke.invokeID p.1 p.2.1 invoke.sessionID
    (if p.2.2 then ctx.pRejectAuth else none) strResponse
  (if encoded.1 = ROSE_NOERROR then lProtocolResult else encoded.1, encoded.2)

end Encoding

/-! ### Handling -/

section Handling

variable {α : Type}

inductive InvokeResult
  | returnResult | returnError | returnReject
  deriving DecidableEq, Repr

/-- What `OnInvoke` has done when it returns: the code, the context and
`strResponse`. -/
abbrev Handled (α : Type) := RoseResult × InvokeContext α × List Octet

def handleOnInvokeResult (enc : Encoder α) (invokeResult : InvokeResult) (invoke : ROSEInvoke)
    (ctx : InvokeContext α) (pResult pError : α) (strResponse : List Octet) :
    Except SnaccException (Handled α) :=
  if invoke.invokeID = eventID then
    .ok (ROSE_NOERROR, { ctx with bResponseIsError := false }, [])
  else
    match invokeResult with
    | .returnResult =>
        (encodeResult enc invoke.invokeID pResult).map fun r => (r.1, ctx, r.2)
    | .returnError =>
        (encodeError enc invoke.invokeID pError).map fun r =>
          (r.1, { ctx with bResponseIsError := true }, r.2)
    | .returnReject =>
        .ok (if ctx.lRejectResult ≠ 0 then ctx.lRejectResult else ROSE_REJECT_FUNCTIONMISSING,
          ctx, strResponse)

/-- What leaves a handler as an exception. -/
inductive Thrown
  | snacc (e : SnaccException)
  | other
  deriving DecidableEq, Repr

/-- What the generated `OnInvoke`, or an override in front of it, does with the
operation. An operation without a result is an event operation: its handler
returns nothing. -/
inductive Dispatch (α : Type)
  /-- No handler is called: the operation is unknown, authentication failed, the
  argument is missing or cannot be decoded. -/
  | refused (lResult : {code : RoseResult // code ≠ ROSE_NOERROR}) (ctx : InvokeContext α)
  | invoke (invokeResult : InvokeResult) (ctx : InvokeContext α) (pResult pError : α)
  | event (ctx : InvokeContext α)
  | throws (e : Thrown)

def onInvoke (enc : Encoder α) (invoke : ROSEInvoke) : Dispatch α → Except Thrown (Handled α)
  | .refused lResult ctx => .ok (lResult, ctx, [])
  | .invoke invokeResult ctx pResult pError =>
      (handleOnInvokeResult enc invokeResult invoke ctx pResult pError []).mapError .snacc
  | .event ctx => .ok (ROSE_NOERROR, ctx, [])
  | .throws e => .error e

/-- `PooledInboundMode`. -/
inductive Mode
  | EnqueueOrRun | Run | ShutdownReject | DropExpired | QueueFull
  deriving DecidableEq, Repr

/-- What one call of `OnInvokeMessage` meets: the answer of the pool that is
responsible for the operation, if there is one, the gate before and after the
handler, the worker's pool after it, and the handler. -/
structure Surroundings (α : Type) where
  enqueue : Option EnqueueResult
  processingAllowed : Bool
  processingStillAllowed : Bool
  currentPoolIsStopping : Bool
  dispatch : Dispatch α

/-- What a call of `OnInvokeMessage` did: it handed the message to a pool, it left
by an exception, or it came to its end, having sent what is listed. -/
inductive Finished
  | queued
  | left (sent : List (List Octet))
  | done (lResult : RoseResult) (dropped : Bool) (sent : List (List Octet))
  deriving DecidableEq, Repr

def Finished.sent : Finished → List (List Octet)
  | .queued => []
  | .left sent => sent
  | .done _ _ sent => sent

/-- The mode after the pool was asked, or nothing when it took the message. -/
def modeAfterEnqueue (mode : Mode) (enqueue : Option EnqueueResult) : Option Mode :=
  if mode = .EnqueueOrRun then
    match enqueue with
    | some .queued => none
    | some .rejectedFull => some .QueueFull
    | some .poolStopped => some .ShutdownReject
    | some .notPooled => some mode
    | none => some mode
  else some mode

/-- From the result of the handling to the reply. -/
def reply (enc : Encoder α) (invoke : ROSEInvoke) (handled : Handled α) (bDropReply : Bool) :
    Finished :=
  let lResult := handled.1
  let rejected :=
    if lResult ≠ ROSE_NOERROR ∧ invoke.invokeID ≠ eventID ∧ bDropReply = false then
      encodeInvokeRejectResponse enc invoke lResult handled.2.1 handled.2.2
    else (lResult, handled.2.2)
  let strResponse := if bDropReply then [] else rejected.2
  .done rejected.1 bDropReply (if strResponse = [] then [] else [strResponse])

/-- The part of `OnInvokeMessage` that no mode decides. A gate that is found closed
after the handler drops its reply. -/
def runHandler (enc : Encoder α) (invoke : ROSEInvoke) (s : Surroundings α) : Finished :=
  let closed : Bool := !s.processingStillAllowed || s.currentPoolIsStopping
  if s.processingAllowed then
    match onInvoke enc invoke s.dispatch with
    | .error .other => .left []
    | .error (.snacc _) =>
        if closed then reply enc invoke (ROSE_TE_SHUTDOWN, .new, []) true
        else reply enc invoke (ROSE_REJECT_MISTYPEDARGUMENT, .new, []) false
    | .ok handled =>
        if closed then reply enc invoke (ROSE_TE_SHUTDOWN, handled.2.1, []) true
        else reply enc invoke handled false
  else reply enc invoke (ROSE_TE_SHUTDOWN, .new, []) false

/-- `OnInvokeMessage`. The result code here is the one before the outcome of the
send is merged into it. -/
def onInvokeMessage (enc : Encoder α) (invoke : ROSEInvoke) (mode : Mode)
    (s : Surroundings α) : Finished :=
  match modeAfterEnqueue mode s.enqueue with
  | none => .queued
  | some .QueueFull => reply enc invoke (ROSE_REJECT_QUEUE_FULL, .new, []) false
  | some .DropExpired => reply enc invoke (ROSE_TE_TIMEOUT, .new, []) true
  | some .ShutdownReject => reply enc invoke (ROSE_TE_SHUTDOWN, .new, []) false
  | some .Run => runHandler enc invoke s
  | some .EnqueueOrRun => runHandler enc invoke s

/-- The mode in which `CompletePooledFromPool` enters. -/
def modeOf : Action → Mode
  | .run => .Run
  | .shutdownReject => .ShutdownReject
  | .dropExpired => .DropExpired

/-- The whole way of an inbound invoke: the call on the socket thread and, when a
pool took the message, the completion by the pool once it happens. -/
def handleInbound (enc : Encoder α) (invoke : ROSEInvoke) (s : Surroundings α)
    (completion : Option (Action × Surroundings α)) : List Finished :=
  match onInvokeMessage enc invoke .EnqueueOrRun s, completion with
  | .queued, some c => [.queued, onInvokeMessage enc invoke (modeOf c.1) c.2]
  | first, _ => [first]

def sentBy (calls : List Finished) : List (List Octet) := calls.flatMap Finished.sent

/-- The call that ends the handling, as far as it came. -/
def lastCall (s : Surroundings α) (completion : Option (Action × Surroundings α)) :
    Mode × Surroundings α :=
  match modeAfterEnqueue .EnqueueOrRun s.enqueue, completion with
  | none, some c => (modeOf c.1, c.2)
  | _, _ => (.EnqueueOrRun, s)

end Handling

/-! ### Replies -/

section Replies

variable {α : Type}

/-- The handling is over and was not dropped on purpose. -/
def Finished.Ended : Finished → Prop
  | .queued => False
  | .left _ => True
  | .done _ dropped _ => dropped = false

/-- Exactly one reply is sent, and it is one to this invoke. -/
def Answered (enc : Encoder α) (invoke : ROSEInvoke) (sent : List (List Octet)) : Prop :=
  ∃ (r : Reply α) (text : Text), r.invokeID = invoke.invokeID ∧
    (enc.encodeValue r = .ok text ∨ enc.encodeReject r = text) ∧ sent = [(frame enc text).2]

/-- The handler was called. -/
def HandlerRuns (mode : Mode) (s : Surroundings α) : Prop :=
  (modeAfterEnqueue mode s.enqueue = some .Run ∨
    modeAfterEnqueue mode s.enqueue = some .EnqueueOrRun) ∧ s.processingAllowed

/-- The handler was that of an operation without a result, or it let out an
exception of its own. -/
def Dispatch.NoReply : Dispatch α → Prop
  | .refused _ _ => False
  | .invoke _ _ _ _ => False
  | .event _ => True
  | .throws (.snacc _) => False
  | .throws .other => True

theorem encodeInvokeRejectResponse_answered (enc : Encoder α) {invoke : ROSEInvoke}
    (h : invoke.invokeID ≠ eventID) (lProtocolResult : RoseResult) (ctx : InvokeContext α)
    (strResponse : List Octet) :
    (encodeInvokeRejectResponse enc invoke lProtocolResult ctx strResponse).2 ≠ [] ∧
      Answered enc invoke
        [(encodeInvokeRejectResponse enc invoke lProtocolResult ctx strResponse).2] := by
  simp only [encodeInvokeRejectResponse, encodeRejectInvoke, if_neg h]
  exact ⟨frame_ne_nil enc _, _, _, rfl, .inr rfl, rfl⟩

/-- What comes out of the handling is a reply already, or a code that makes one. -/
def Replies (enc : Encoder α) (invoke : ROSEInvoke) (handled : Handled α) : Prop :=
  handled.1 = ROSE_NOERROR → handled.2.2 ≠ [] ∧ Answered enc invoke [handled.2.2]

theorem reply_dropped (enc : Encoder α) (invoke : ROSEInvoke) (handled : Handled α) :
    reply enc invoke handled true = .done handled.1 true [] := by
  simp [reply]

theorem reply_event (enc : Encoder α) {invoke : ROSEInvoke} (h : invoke.invokeID = eventID)
    (lResult : RoseResult) (ctx : InvokeContext α) :
    reply enc invoke (lResult, ctx, []) false = .done lResult false [] := by
  simp [reply, h]

theorem reply_answered (enc : Encoder α) {invoke : ROSEInvoke} (h : invoke.invokeID ≠ eventID)
    (handled : Handled α) (hreplies : Replies enc invoke handled) :
    Answered enc invoke (reply enc invoke handled false).sent := by
  by_cases hcode : handled.1 = ROSE_NOERROR
  · obtain ⟨hne, hanswered⟩ := hreplies hcode
    simpa [reply, hcode, Finished.sent, hne] using hanswered
  · obtain ⟨hne, hanswered⟩ := encodeInvokeRejectResponse_answered enc h handled.1 handled.2.1
      handled.2.2
    simpa [reply, hcode, h, Finished.sent, hne] using hanswered

theorem replies_of_code_ne (enc : Encoder α) (invoke : ROSEInvoke) {lResult : RoseResult}
    (h : lResult ≠ ROSE_NOERROR) (ctx : InvokeContext α) (strResponse : List Octet) :
    Replies enc invoke (lResult, ctx, strResponse) :=
  fun h0 => absurd h0 h

theorem handleOnInvokeResult_event (enc : Encoder α) (invokeResult : InvokeResult)
    {invoke : ROSEInvoke} (h : invoke.invokeID = eventID) (ctx : InvokeContext α)
    (pResult pError : α) (strResponse : List Octet) :
    handleOnInvokeResult enc invokeResult invoke ctx pResult pError strResponse =
      .ok (ROSE_NOERROR, { ctx with bResponseIsError := false }, []) :=
  if_pos h

theorem handleOnInvokeResult_replies (enc : Encoder α) {invokeResult : InvokeResult}
    {invoke : ROSEInvoke} (h : invoke.invokeID ≠ eventID) {ctx : InvokeContext α}
    {pResult pError : α} {strResponse : List Octet} {handled : Handled α}
    (hok : handleOnInvokeResult enc invokeResult invoke ctx pResult pError strResponse =
      .ok handled) :
    Replies enc invoke handled := by
  unfold handleOnInvokeResult at hok
  rw [if_neg h] at hok
  cases invokeResult with
  | returnResult =>
      dsimp only [encodeResult] at hok
      cases henc : enc.encodeValue (.result invoke.invokeID pResult) with
      | error e => simp [henc, Except.map] at hok
      | ok text =>
          obtain rfl : _ = handled := by simpa [henc, Except.map] using hok
          exact fun _ => ⟨frame_ne_nil enc text, _, text, rfl, .inl henc, rfl⟩
  | returnError =>
      dsimp only [encodeError] at hok
      cases henc : enc.encodeValue (.error invoke.invokeID pError) with
      | error e => simp [henc, Except.map] at hok
      | ok text =>
          obtain rfl : _ = handled := by simpa [henc, Except.map] using hok
          exact fun _ => ⟨frame_ne_nil enc text, _, text, rfl, .inl henc, rfl⟩
  | returnReject =>
      obtain rfl : _ = handled := Except.ok.inj hok
      refine replies_of_code_ne enc invoke ?_ _ _
      split
      · assumption
      · decide

theorem onInvoke_event (enc : Encoder α) {invoke : ROSEInvoke} (h : invoke.invokeID = eventID)
    {d : Dispatch α} {handled : Handled α} (hok : onInvoke enc invoke d = .ok handled) :
    handled.2.2 = [] := by
  cases d with
  | refused lResult ctx =>
      obtain rfl : _ = handled := Except.ok.inj hok
      rfl
  | invoke invokeResult ctx pResult pError =>
      rw [onInvoke, handleOnInvokeResult_event enc invokeResult h] at hok
      obtain rfl : _ = handled := Except.ok.inj hok
      rfl
  | event ctx =>
      obtain rfl : _ = handled := Except.ok.inj hok
      rfl
  | throws e => cases hok

theorem onInvoke_replies (enc : Encoder α) {invoke : ROSEInvoke} (h : invoke.invokeID ≠ eventID)
    {d : Dispatch α} (hd : ¬ d.NoReply) {handled : Handled α}
    (hok : onInvoke enc invoke d = .ok handled) : Replies enc invoke handled := by
  cases d with
  | refused lResult ctx =>
      obtain rfl : _ = handled := Except.ok.inj hok
      exact replies_of_code_ne enc invoke lResult.property ctx []
  | invoke invokeResult ctx pResult pError =>
      rw [onInvoke] at hok
      cases hresult : handleOnInvokeResult enc invokeResult invoke ctx pResult pError [] with
      | error e => simp [hresult, Except.mapError] at hok
      | ok handled' =>
          obtain rfl : handled' = handled := by simpa [hresult, Except.mapError] using hok
          exact handleOnInvokeResult_replies enc h hresult
  | event ctx => exact absurd trivial hd
  | throws e => cases hok

/-- An exception that is not one of the library comes from the handler. -/
theorem noReply_of_onInvoke (enc : Encoder α) (invoke : ROSEInvoke) {d : Dispatch α}
    (h : onInvoke enc invoke d = .error .other) : d.NoReply := by
  cases d with
  | refused lResult ctx => cases h
  | invoke invokeResult ctx pResult pError =>
      rw [onInvoke] at h
      cases hresult : handleOnInvokeResult enc invokeResult invoke ctx pResult pError [] with
      | error e => simp [hresult, Except.mapError] at h
      | ok handled => simp [hresult, Except.mapError] at h
  | event ctx => cases h
  | throws e =>
      obtain rfl : e = .other := Except.error.inj h
      trivial

/-- A call was dropped, rejected without the handler, or ended as the handler did. -/
inductive Course (enc : Encoder α) (invoke : ROSEInvoke) (ran : Prop) (d : Dispatch α) :
    Finished → Prop
  | dropped (lResult : RoseResult) : Course enc invoke ran d (.done lResult true [])
  | rejected (lResult : RoseResult) (h : lResult ≠ ROSE_NOERROR) :
      Course enc invoke ran d (reply enc invoke (lResult, .new, []) false)
  | left (h : ran) (herror : onInvoke enc invoke d = .error .other) :
      Course enc invoke ran d (.left [])
  | handled (h : ran) (handled : Handled α) (hok : onInvoke enc invoke d = .ok handled) :
      Course enc invoke ran d (reply enc invoke handled false)

theorem runHandler_course (enc : Encoder α) (invoke : ROSEInvoke) (s : Surroundings α) :
    Course enc invoke s.processingAllowed s.dispatch (runHandler enc invoke s) := by
  unfold runHandler
  dsimp only
  split
  · next hallowed =>
      split
      · next herror => exact .left hallowed herror
      · split
        · rw [reply_dropped]
          exact .dropped _
        · exact .rejected _ (by decide)
      · next handled hok =>
          split
          · rw [reply_dropped]
            exact .dropped _
          · exact .handled hallowed handled hok
  · exact .rejected _ (by decide)

theorem onInvokeMessage_course (enc : Encoder α) (invoke : ROSEInvoke) (mode : Mode)
    (s : Surroundings α) (h : modeAfterEnqueue mode s.enqueue ≠ none) :
    Course enc invoke (HandlerRuns mode s) s.dispatch (onInvokeMessage enc invoke mode s) := by
  have hrun (hmode : modeAfterEnqueue mode s.enqueue = some .Run ∨
      modeAfterEnqueue mode s.enqueue = some .EnqueueOrRun) :
      Course enc invoke (HandlerRuns mode s) s.dispatch (runHandler enc invoke s) := by
    have hcourse := runHandler_course enc invoke s
    generalize runHandler enc invoke s = f at hcourse ⊢
    cases hcourse with
    | dropped lResult => exact .dropped lResult
    | rejected lResult hcode => exact .rejected lResult hcode
    | left hallowed herror => exact .left ⟨hmode, hallowed⟩ herror
    | handled hallowed handled hok => exact .handled ⟨hmode, hallowed⟩ handled hok
  unfold onInvokeMessage
  split
  · next hmode => exact absurd hmode h
  · exact .rejected _ (by decide)
  · rw [reply_dropped]
    exact .dropped _
  · exact .rejected _ (by decide)
  · next hmode => exact hrun (.inl hmode)
  · next hmode => exact hrun (.inr hmode)

theorem length_sent_reply (enc : Encoder α) (invoke : ROSEInvoke) (handled : Handled α)
    (bDropReply : Bool) : (reply enc invoke handled bDropReply).sent.length ≤ 1 := by
  simp only [reply, Finished.sent]
  generalize (if bDropReply then _ else _ : List Octet) = strResponse
  split <;> simp

theorem length_sent_le (enc : Encoder α) (invoke : ROSEInvoke) (mode : Mode)
    (s : Surroundings α) : (onInvokeMessage enc invoke mode s).sent.length ≤ 1 := by
  by_cases h : modeAfterEnqueue mode s.enqueue = none
  · simp [onInvokeMessage, h, Finished.sent]
  · have hcourse := onInvokeMessage_course enc invoke mode s h
    generalize onInvokeMessage enc invoke mode s = f at hcourse ⊢
    cases hcourse with
    | dropped lResult => exact Nat.zero_le 1
    | rejected lResult hcode => exact length_sent_reply enc invoke _ false
    | left hrun herror => exact Nat.zero_le 1
    | handled hrun handled hok => exact length_sent_reply enc invoke handled false

theorem sent_event (enc : Encoder α) {invoke : ROSEInvoke} (hevent : invoke.invokeID = eventID)
    (mode : Mode) (s : Surroundings α) : (onInvokeMessage enc invoke mode s).sent = [] := by
  by_cases h : modeAfterEnqueue mode s.enqueue = none
  · simp [onInvokeMessage, h, Finished.sent]
  · have hcourse := onInvokeMessage_course enc invoke mode s h
    generalize onInvokeMessage enc invoke mode s = f at hcourse ⊢
    cases hcourse with
    | dropped lResult => rfl
    | rejected lResult hcode => rw [reply_event enc hevent, Finished.sent]
    | left hrun herror => rfl
    | handled hrun handled hok =>
        obtain ⟨lResult, ctx, strResponse⟩ := handled
        obtain rfl : strResponse = [] := onInvoke_event enc hevent hok
        rw [reply_event enc hevent, Finished.sent]

theorem answered_of_ended (enc : Encoder α) {invoke : ROSEInvoke}
    (hinvoke : invoke.invokeID ≠ eventID) {mode : Mode} {s : Surroundings α}
    (hended : (onInvokeMessage enc invoke mode s).Ended)
    (hreply : ¬ (HandlerRuns mode s ∧ s.dispatch.NoReply)) :
    Answered enc invoke (onInvokeMessage enc invoke mode s).sent := by
  have h : modeAfterEnqueue mode s.enqueue ≠ none := by
    intro h
    simp [onInvokeMessage, h, Finished.Ended] at hended
  have hcourse := onInvokeMessage_course enc invoke mode s h
  generalize onInvokeMessage enc invoke mode s = f at hcourse hended ⊢
  cases hcourse with
  | dropped lResult => cases hended
  | rejected lResult hcode =>
      exact reply_answered enc hinvoke _ (replies_of_code_ne enc invoke hcode .new [])
  | left hrun herror => exact absurd ⟨hrun, noReply_of_onInvoke enc invoke herror⟩ hreply
  | handled hrun handled hok =>
      have hd : ¬ s.dispatch.NoReply := fun hd => hreply ⟨hrun, hd⟩
      exact reply_answered enc hinvoke handled (onInvoke_replies enc hinvoke hd hok)

theorem onInvokeMessage_eq_queued (enc : Encoder α) (invoke : ROSEInvoke) (mode : Mode)
    (s : Surroundings α) :
    onInvokeMessage enc invoke mode s = .queued ↔ modeAfterEnqueue mode s.enqueue = none := by
  constructor
  · intro hqueued
    by_contra h
    have hcourse := onInvokeMessage_course enc invoke mode s h
    rw [hqueued] at hcourse
    generalize hf : Finished.queued = f at hcourse
    cases hcourse with
    | dropped lResult => cases hf
    | rejected lResult hcode => cases hf
    | left hrun herror => cases hf
    | handled hrun handled hok => cases hf
  · intro h
    simp [onInvokeMessage, h]

/-- Nothing comes before the last call but a hand-over to a pool. -/
theorem handleInbound_eq (enc : Encoder α) (invoke : ROSEInvoke) (s : Surroundings α)
    (completion : Option (Action × Surroundings α)) :
    ∃ before, (before = [] ∨ before = [.queued]) ∧
      handleInbound enc invoke s completion =
        before ++ [onInvokeMessage enc invoke (lastCall s completion).1
          (lastCall s completion).2] := by
  by_cases h : modeAfterEnqueue .EnqueueOrRun s.enqueue = none
  · have hqueued := (onInvokeMessage_eq_queued enc invoke .EnqueueOrRun s).mpr h
    cases completion with
    | none => exact ⟨[], .inl rfl, by simp [handleInbound, lastCall, h]⟩
    | some c => exact ⟨[.queued], .inr rfl, by simp [handleInbound, hqueued, lastCall, h]⟩
  · have hne := (onInvokeMessage_eq_queued enc invoke .EnqueueOrRun s).not.mpr h
    refine ⟨[], .inl rfl, ?_⟩
    have hlast : lastCall s completion = (.EnqueueOrRun, s) := by
      unfold lastCall
      split
      · next hnone => exact absurd hnone h
      · rfl
    rw [hlast]
    unfold handleInbound
    split
    · next hqueued => exact absurd hqueued hne
    · rfl

theorem sentBy_handleInbound (enc : Encoder α) (invoke : ROSEInvoke) (s : Surroundings α)
    (completion : Option (Action × Surroundings α)) :
    sentBy (handleInbound enc invoke s completion) =
      (onInvokeMessage enc invoke (lastCall s completion).1 (lastCall s completion).2).sent := by
  obtain ⟨before, hbefore, heq⟩ := handleInbound_eq enc invoke s completion
  rw [heq]
  rcases hbefore with rfl | rfl <;> simp [sentBy, Finished.sent]

theorem getLast_handleInbound (enc : Encoder α) (invoke : ROSEInvoke) (s : Surroundings α)
    (completion : Option (Action × Surroundings α)) :
    (handleInbound enc invoke s completion).getLast? =
      some (onInvokeMessage enc invoke (lastCall s completion).1 (lastCall s completion).2) := by
  obtain ⟨before, -, heq⟩ := handleInbound_eq enc invoke s completion
  rw [heq, List.getLast?_concat]

end Replies

/-! ### One reply -/

section OneReply

variable {α : Type}

/-- At most one reply to a message, none to an event, and exactly one to an invoke
whose handling is over and was not dropped. -/
def OneReply (enc : Encoder α) (invoke : ROSEInvoke) (s : Surroundings α)
    (completion : Option (Action × Surroundings α)) : Prop :=
  (sentBy (handleInbound enc invoke s completion)).length ≤ 1 ∧
    (invoke.invokeID = eventID → sentBy (handleInbound enc invoke s completion) = []) ∧
    (invoke.invokeID ≠ eventID →
      (∀ f ∈ (handleInbound enc invoke s completion).getLast?, f.Ended) →
      Answered enc invoke (sentBy (handleInbound enc invoke s completion)))

/-- The one gap in `OneReply` is a handler that has no reply to give. -/
theorem one_reply (enc : Encoder α) (invoke : ROSEInvoke) (s : Surroundings α)
    (completion : Option (Action × Surroundings α)) :
    (sentBy (handleInbound enc invoke s completion)).length ≤ 1 ∧
      (invoke.invokeID = eventID → sentBy (handleInbound enc invoke s completion) = []) ∧
      (invoke.invokeID ≠ eventID →
        (∀ f ∈ (handleInbound enc invoke s completion).getLast?, f.Ended) →
        ¬ (HandlerRuns (lastCall s completion).1 (lastCall s completion).2 ∧
          (lastCall s completion).2.dispatch.NoReply) →
        Answered enc invoke (sentBy (handleInbound enc invoke s completion))) := by
  rw [sentBy_handleInbound, getLast_handleInbound]
  refine ⟨length_sent_le enc invoke _ _, fun hevent => sent_event enc hevent _ _, ?_⟩
  intro hinvoke hended hreply
  exact answered_of_ended enc hinvoke (hended _ rfl) hreply

/-- An operation without a result is invoked with an id that is not the one of
events: its handler runs and nothing is sent. -/
theorem not_oneReply :
    ¬ ∀ (enc : Encoder Unit) (invoke : ROSEInvoke) (s : Surroundings Unit)
        (completion : Option (Action × Surroundings Unit)),
      OneReply enc invoke s completion := by
  intro h
  have henc : ([0xA2] : List Octet) ≠ [] := by decide
  let enc : Encoder Unit := ⟨.BER, fun _ => .ok ⟨[0xA2], henc⟩, fun _ => ⟨[0xA2], henc⟩⟩
  obtain ⟨-, -, hinvoke⟩ := h enc ⟨5, none⟩ ⟨none, true, true, false, .event .new⟩ none
  obtain ⟨r, text, -, -, hsent⟩ := hinvoke (by decide) (by simp [handleInbound,
    onInvokeMessage, modeAfterEnqueue, runHandler, onInvoke, reply, Finished.Ended])
  simp [handleInbound, enc, onInvokeMessage, modeAfterEnqueue, runHandler, onInvoke, reply,
    sentBy, Finished.sent] at hsent

end OneReply

end Esnacc.InvokeReply
