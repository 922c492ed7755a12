import Esnacc.Lib.Transition

/-!
How a `TSASN1Client` comes to its connection: a flag says that an attempt is on its way, and the
promises of those who wait for it are queued. Attempts, sockets and promises are numbered.
-/

namespace Esnacc.Ts

open Transition

/-- Where `createStateFullConnection` stands: it waits for the callbacks before the connect, for
the socket, or for the callbacks behind it. -/
inductive Stage
  | before
  | connecting (socket : ℕ)
  | notifying (socket : ℕ)
  deriving DecidableEq, Repr

/-- What becomes of a queued promise; a socket may have been closed before it is handed out. -/
inductive Settlement
  | resolved (socket : ℕ) (closed : Bool)
  | rejected
  deriving DecidableEq, Repr

/-- How it goes on behind the callbacks before the connect: one of them returns false or throws,
or there is no socket object, or there is one. -/
inductive BeforeConnect
  | vetoed
  | throws
  | noSocket
  | connects
  deriving DecidableEq, Repr

structure Connection where
  socket : Option ℕ
  openingStateFullConnection : Bool
  pendingSockets : List ℕ
  attempts : List (ℕ × Stage)
  started : ℕ
  sockets : ℕ
  connected : List ℕ
  closed : List ℕ
  promises : ℕ
  settled : List (ℕ × Settlement)
  deriving DecidableEq, Repr

inductive ConnectAction
  | getConnection
  | clientReconnect
  | disconnect
  | beforeConnect (attempt : ℕ) (result : BeforeConnect)
  | socketConnected (attempt : ℕ)
  | openingFailed (attempt : ℕ)
  | notified (attempt : ℕ)
  | socketClosed (socket : ℕ)
  deriving DecidableEq, Repr

namespace Connection

def init : Connection := ⟨none, false, [], [], 0, 0, [], [], 0, []⟩

/-- `PendingSockets.resolve` and `PendingSockets.reject`. -/
def settleAll (s : Connection) (settlement : Settlement) : Connection :=
  { s with
    pendingSockets := []
    settled := s.settled ++ s.pendingSockets.map fun p => (p, settlement) }

/-- `createStateFullConnection` up to the first `await`. -/
def createStateFullConnection (s : Connection) : Connection :=
  if s.socket.isSome then s
  else
    { s with
      openingStateFullConnection := true
      attempts := s.attempts ++ [(s.started, .before)]
      started := s.started + 1 }

def getConnection (s : Connection) : Connection :=
  if s.socket.isSome then s
  else
    let s := { s with
      pendingSockets := s.pendingSockets ++ [s.promises], promises := s.promises + 1 }
    if !s.openingStateFullConnection then s.createStateFullConnection else s

def clientReconnect (s : Connection) : Connection :=
  if s.socket.isSome || s.openingStateFullConnection then s else s.createStateFullConnection

def shutdown (s : Connection) : Connection :=
  { s with closed := s.closed ++ s.socket.toList, socket := none }.settleAll .rejected

/-- An attempt is over. -/
def finish (s : Connection) (attempt : ℕ) : Connection :=
  { s with attempts := s.attempts.filter fun a => a.1 ≠ attempt }

/-- An attempt goes on. -/
def advance (s : Connection) (attempt : ℕ) (stage : Stage) : Connection :=
  { s with attempts := s.attempts.map fun a => if a.1 = attempt then (attempt, stage) else a }

def stageOf (s : Connection) (attempt : ℕ) : Option Stage :=
  (s.attempts.find? fun a => a.1 = attempt).map Prod.snd

/-- An exception leaves the flag as it is. -/
def beforeConnect (s : Connection) (attempt : ℕ) : BeforeConnect → Connection
  | .vetoed | .throws | .noSocket => s.finish attempt
  | .connects => { s.advance attempt (.connecting s.sockets) with sockets := s.sockets + 1 }

/-- The handler `onSocketConnected` of an attempt. -/
def socketConnected (s : Connection) (attempt : ℕ) : Connection :=
  match s.stageOf attempt with
  | some (.connecting socket) =>
      { s.advance attempt (.notifying socket) with
        socket := some socket
        connected := s.connected ++ [socket] }
  | _ => s

/-- The handler `onSocketClose` of an attempt. -/
def openingFailed (s : Connection) (attempt : ℕ) : Connection :=
  match s.stageOf attempt with
  | some (.connecting socket) =>
      { (s.settleAll .rejected).finish attempt with
        closed := s.closed ++ [socket]
        openingStateFullConnection := false }
  | _ => s

/-- What stands in `finally` behind `fire_OnConnected`. -/
def notified (s : Connection) (attempt : ℕ) : Connection :=
  match s.stageOf attempt with
  | some (.notifying socket) =>
      { (s.settleAll (.resolved socket (s.closed.contains socket))).finish attempt with
        openingStateFullConnection := false }
  | _ => s

def act (s : Connection) : ConnectAction → Connection
  | .getConnection => s.getConnection
  | .clientReconnect => s.clientReconnect
  | .disconnect => s.shutdown
  | .beforeConnect attempt result => s.beforeConnect attempt result
  | .socketConnected attempt => s.socketConnected attempt
  | .openingFailed attempt => s.openingFailed attempt
  | .notified attempt => s.notified attempt
  | .socketClosed socket => { s with closed := s.closed ++ [socket] }.shutdown

/-- What may happen: an attempt goes on from where it stands, and a socket that has been connected
is closed. -/
def step (s : Connection) (a : ConnectAction) (s' : Connection) : Prop :=
  s' = s.act a ∧
    match a with
    | .beforeConnect attempt _ => s.stageOf attempt = some .before
    | .socketConnected attempt | .openingFailed attempt =>
        ∃ socket, s.stageOf attempt = some (.connecting socket)
    | .notified attempt => ∃ socket, s.stageOf attempt = some (.notifying socket)
    | .socketClosed socket => socket ∈ s.connected
    | _ => True

/-- No caller is stranded. -/
structure Sound (s : Connection) : Prop where
  single : s.attempts.length ≤ 1
  flag : s.openingStateFullConnection = true ↔ s.attempts ≠ []
  waiting : s.pendingSockets ≠ [] → s.attempts ≠ []
  once : (s.pendingSockets ++ s.settled.map Prod.fst).Perm (List.range s.promises)
  live : ∀ p socket closed, (p, Settlement.resolved socket closed) ∈ s.settled → closed = false

/-- The callbacks before a connect neither veto nor throw, there is a socket object, and nobody
asks for a connection when it has been closed while the callbacks behind it are running. -/
def Regular (s : Connection) : ConnectAction → Prop
  | .beforeConnect _ result => result = .connects
  | .getConnection => s.socket = none → ∀ a ∈ s.attempts, ∀ socket, a.2 ≠ .notifying socket
  | _ => True

/-- What holds of the stages in which an attempt can be. -/
def Stands (s : Connection) : Stage → Prop
  | .before => s.socket = none
  | .connecting socket => s.socket = none ∧ socket < s.sockets ∧ socket ∉ s.connected ∧
      socket ∉ s.closed
  | .notifying socket => s.socket = some socket ∨ s.socket = none ∧ s.pendingSockets = []

/-- The invariant. -/
structure Inv (s : Connection) : Prop where
  attempt : (s.attempts = [] ∧ s.openingStateFullConnection = false ∧ s.pendingSockets = []) ∨
    ∃ n stage, s.attempts = [(n, stage)] ∧ s.openingStateFullConnection = true ∧ s.Stands stage
  socket : ∀ socket, s.socket = some socket → socket < s.sockets ∧ socket ∉ s.closed
  connected : ∀ socket ∈ s.connected, socket < s.sockets
  closed : ∀ socket ∈ s.closed, socket < s.sockets
  once : (s.pendingSockets ++ s.settled.map Prod.fst).Perm (List.range s.promises)
  live : ∀ p socket closed, (p, Settlement.resolved socket closed) ∈ s.settled → closed = false

theorem inv_init : init.Inv :=
  ⟨.inl ⟨rfl, rfl, rfl⟩, by simp [init], by simp [init], by simp [init], .nil, by simp [init]⟩

theorem Inv.sound {s : Connection} (h : s.Inv) : s.Sound := by
  refine ⟨?_, ?_, ?_, h.once, h.live⟩
  all_goals
    rcases h.attempt with ⟨hnone, hflag, hqueue⟩ | ⟨n, stage, hone, hflag, -⟩
  · simp [hnone]
  · simp [hone]
  · simp [hnone, hflag]
  · simp [hone, hflag]
  · simp [hqueue]
  · simp [hone]

theorem perm_settleAll {s : Connection} (h : s.Inv) (settlement : Settlement) :
    ((s.settleAll settlement).pendingSockets ++
      (s.settleAll settlement).settled.map Prod.fst).Perm (List.range s.promises) := by
  simp only [settleAll, List.map_append, List.map_map, List.nil_append]
  rw [show (Prod.fst ∘ fun p : ℕ => (p, settlement)) = id from rfl, List.map_id]
  exact List.perm_append_comm.trans h.once

theorem live_settleAll {s : Connection} (h : s.Inv) {settlement : Settlement}
    (hsettlement : ∀ socket closed, settlement = .resolved socket closed →
      s.pendingSockets ≠ [] → closed = false) (p socket : ℕ) (closed : Bool)
    (hmem : (p, Settlement.resolved socket closed) ∈ (s.settleAll settlement).settled) :
    closed = false := by
  rcases List.mem_append.1 hmem with hmem | hmem
  · exact h.live p socket closed hmem
  · obtain ⟨p', hp', heq⟩ := List.mem_map.1 hmem
    cases heq
    exact hsettlement socket closed rfl (List.ne_nil_of_mem hp')

/-- An attempt starts. -/
theorem Inv.create {s : Connection} (h : s.Inv) (hsocket : s.socket = none)
    (hnone : s.attempts = []) : s.createStateFullConnection.Inv := by
  rw [createStateFullConnection, if_neg (by simp [hsocket])]
  refine ⟨.inr ⟨s.started, .before, ?_, rfl, hsocket⟩, h.socket, h.connected, h.closed, h.once,
    h.live⟩
  dsimp only
  rw [hnone, List.nil_append]

theorem Inv.getConnection {s : Connection} (h : s.Inv) (hregular : s.Regular .getConnection) :
    s.getConnection.Inv := by
  rw [Connection.getConnection]
  split
  · exact h
  · next hsocket =>
      have hsocket' : s.socket = none := by simpa using hsocket
      have honce : ((s.pendingSockets ++ [s.promises]) ++ s.settled.map Prod.fst).Perm
          (List.range (s.promises + 1)) := by
        rw [List.range_succ]
        refine .trans ?_ (h.once.append_right _)
        rw [List.append_assoc, List.append_assoc]
        exact List.perm_append_comm.append_left _
      rcases h.attempt with ⟨hnone, hflag, hqueue⟩ | ⟨n, stage, hone, hflag, hstands⟩
      · dsimp only
        rw [hflag, Bool.not_false, if_pos rfl, createStateFullConnection, if_neg hsocket]
        refine ⟨.inr ⟨s.started, .before, ?_, rfl, hsocket'⟩, h.socket, h.connected, h.closed,
          honce, h.live⟩
        dsimp only
        rw [hnone, List.nil_append]
      · dsimp only
        rw [hflag, Bool.not_true, if_neg Bool.false_ne_true]
        refine ⟨.inr ⟨n, stage, hone, rfl, ?_⟩, h.socket, h.connected, h.closed, honce, h.live⟩
        cases stage with
        | before => exact hstands
        | connecting socket => exact hstands
        | notifying socket =>
            refine absurd rfl (hregular hsocket' (n, .notifying socket) ?_ socket)
            rw [hone]
            exact List.mem_singleton_self _

/-- The current socket goes, and all who wait are told. -/
theorem Inv.shutdown {s : Connection} (h : s.Inv) {closed : List ℕ}
    (hclosed : ∀ socket ∈ closed, socket < s.sockets ∧ socket ∈ s.connected) :
    ({ s with closed := s.closed ++ closed }.shutdown).Inv := by
  have hall {socket : ℕ} (hmem : socket ∈ s.closed ++ closed ++ s.socket.toList) :
      socket < s.sockets ∧ (socket ∈ s.closed ∨ socket ∈ s.connected ∨ s.socket = some socket) := by
    rw [List.mem_append, List.mem_append, Option.mem_toList] at hmem
    rcases hmem with (hmem | hmem) | hmem
    · exact ⟨h.closed socket hmem, .inl hmem⟩
    · exact ⟨(hclosed socket hmem).1, .inr (.inl (hclosed socket hmem).2)⟩
    · exact ⟨(h.socket socket hmem).1, .inr (.inr hmem)⟩
  refine ⟨?_, (fun _ hno => by cases hno), h.connected, fun socket hmem => (hall hmem).1,
    perm_settleAll h .rejected, live_settleAll h fun _ _ heq => by cases heq⟩
  rcases h.attempt with ⟨hnone, hflag, -⟩ | ⟨n, stage, hone, hflag, hstands⟩
  · exact .inl ⟨hnone, hflag, rfl⟩
  · refine .inr ⟨n, stage, hone, hflag, ?_⟩
    cases stage with
    | before => exact rfl
    | connecting socket =>
        obtain ⟨hnone, hlt, hconnected, hopen⟩ := hstands
        refine ⟨rfl, hlt, hconnected, fun hmem => ?_⟩
        rcases (hall hmem).2 with hmem | hmem | hmem
        · exact hopen hmem
        · exact hconnected hmem
        · rw [hnone] at hmem
          cases hmem
    | notifying socket => exact .inr ⟨rfl, rfl⟩

/-- The only attempt. -/
theorem Inv.attempt_of_stage {s : Connection} (h : s.Inv) {n : ℕ} {stage : Stage}
    (hstage : s.stageOf n = some stage) :
    s.attempts = [(n, stage)] ∧ s.openingStateFullConnection = true ∧ s.Stands stage := by
  rw [stageOf] at hstage
  rcases h.attempt with ⟨hnone, -, -⟩ | ⟨n', stage', hone, hflag, hstands⟩
  · rw [hnone] at hstage
    cases hstage
  · rw [hone] at hstage ⊢
    by_cases heq : n' = n
    · subst heq
      simp only [List.find?_cons, decide_true, Option.map_some, Option.some.injEq] at hstage
      subst hstage
      exact ⟨rfl, hflag, hstands⟩
    · simp [heq] at hstage

theorem Inv.connects {s : Connection} (h : s.Inv) {n : ℕ} (hstage : s.stageOf n = some .before) :
    (s.beforeConnect n .connects).Inv := by
  obtain ⟨hone, hflag, hsocket⟩ := h.attempt_of_stage hstage
  have hnone : s.socket = none := hsocket
  have hfresh {sockets : List ℕ} (hlt : ∀ socket ∈ sockets, socket < s.sockets) :
      s.sockets ∉ sockets := fun hmem => lt_irrefl _ (hlt _ hmem)
  refine ⟨.inr ⟨n, .connecting s.sockets, ?_, hflag, hnone, Nat.lt_succ_self _,
    hfresh h.connected, hfresh h.closed⟩, ?_, ?_, ?_, h.once, h.live⟩
  · simp [beforeConnect, advance, hone]
  · intro socket hsome
    change s.socket = some socket at hsome
    rw [hnone] at hsome
    cases hsome
  · exact fun socket hmem => (h.connected socket hmem).trans (Nat.lt_succ_self _)
  · exact fun socket hmem => (h.closed socket hmem).trans (Nat.lt_succ_self _)

theorem Inv.socketConnected {s : Connection} (h : s.Inv) {n socket : ℕ}
    (hstage : s.stageOf n = some (.connecting socket)) : (s.socketConnected n).Inv := by
  obtain ⟨hone, hflag, hnone, hlt, hconnected, hopen⟩ := h.attempt_of_stage hstage
  rw [Connection.socketConnected, hstage]
  refine ⟨.inr ⟨n, .notifying socket, ?_, hflag, .inl rfl⟩, ?_, ?_, h.closed, h.once, h.live⟩
  · simp [advance, hone]
  · intro socket' hsome
    cases hsome
    exact ⟨hlt, hopen⟩
  · intro socket' hmem
    rcases List.mem_append.1 hmem with hmem | hmem
    · exact h.connected socket' hmem
    · rw [List.mem_singleton.1 hmem]
      exact hlt

theorem finish_of_one {s : Connection} {n : ℕ} {stage : Stage} (hone : s.attempts = [(n, stage)]) :
    (s.finish n).attempts = [] := by
  simp [finish, hone]

theorem Inv.openingFailed {s : Connection} (h : s.Inv) {n socket : ℕ}
    (hstage : s.stageOf n = some (.connecting socket)) : (s.openingFailed n).Inv := by
  obtain ⟨hone, hflag, hnone, hlt, hconnected, hopen⟩ := h.attempt_of_stage hstage
  rw [Connection.openingFailed, hstage]
  refine ⟨.inl ⟨finish_of_one hone, rfl, rfl⟩, ?_, h.connected, ?_, perm_settleAll h .rejected,
    live_settleAll h fun _ _ heq => by cases heq⟩
  · intro socket' hsome
    change s.socket = some socket' at hsome
    rw [hnone] at hsome
    cases hsome
  · intro socket' hmem
    rcases List.mem_append.1 hmem with hmem | hmem
    · exact h.closed socket' hmem
    · rw [List.mem_singleton.1 hmem]
      exact hlt

/-- Those who still wait when the callbacks have ended have come before the socket was there. -/
theorem Inv.notified {s : Connection} (h : s.Inv) {n socket : ℕ}
    (hstage : s.stageOf n = some (.notifying socket)) : (s.notified n).Inv := by
  obtain ⟨hone, hflag, hstands⟩ := h.attempt_of_stage hstage
  rw [Connection.notified, hstage]
  refine ⟨.inl ⟨finish_of_one hone, rfl, rfl⟩, h.socket, h.connected, h.closed,
    perm_settleAll h _, live_settleAll h fun socket' closed heq hqueue => ?_⟩
  cases heq
  rcases hstands with hsome | ⟨-, hempty⟩
  · simpa using (h.socket socket hsome).2
  · exact absurd hempty hqueue

theorem inv_act {s s' : Connection} {a : ConnectAction} (h : s.Inv) (hstep : step s a s')
    (hregular : s.Regular a) : s'.Inv := by
  obtain ⟨rfl, henabled⟩ := hstep
  cases a with
  | getConnection => exact h.getConnection hregular
  | clientReconnect =>
      change s.clientReconnect.Inv
      rw [clientReconnect]
      split
      · exact h
      · next hidle =>
          rw [Bool.or_eq_true, not_or] at hidle
          rcases h.attempt with ⟨hnone, -, -⟩ | ⟨n, stage, -, hflag, -⟩
          · exact h.create (by simpa using hidle.1) hnone
          · exact absurd hflag hidle.2
  | disconnect =>
      have hshutdown := @Inv.shutdown s h [] (by simp)
      rw [List.append_nil] at hshutdown
      exact hshutdown
  | beforeConnect n result =>
      change result = .connects at hregular
      subst hregular
      exact h.connects henabled
  | socketConnected n =>
      obtain ⟨socket, hstage⟩ := henabled
      exact h.socketConnected hstage
  | openingFailed n =>
      obtain ⟨socket, hstage⟩ := henabled
      exact h.openingFailed hstage
  | notified n =>
      obtain ⟨socket, hstage⟩ := henabled
      exact h.notified hstage
  | socketClosed socket =>
      refine @Inv.shutdown s h [socket] fun socket' hmem => ?_
      rw [List.mem_singleton.1 hmem]
      exact ⟨h.connected socket henabled, henabled⟩

/-- Nobody is stranded as long as every attempt comes to its socket, and nobody asks for a
connection that has been closed before the callbacks behind it have ended. -/
theorem sound_of_regular {trace : List ConnectAction} {s : Connection}
    (h : Run (restrict step Regular) init trace s) : s.Sound := by
  refine (h.state_invariant (P := Inv) inv_init ?_).sound
  rintro s a s' hinv ⟨hstep, hregular⟩
  exact inv_act hinv hstep hregular

/-- Two callers get the socket of one attempt. -/
theorem sound_of_regular_two :
    (([.getConnection, .getConnection, .beforeConnect 0 .connects, .socketConnected 0,
      .notified 0] : List ConnectAction).foldl act init).Sound :=
  sound_of_regular
    (.snoc (l := .notified 0)
      (.snoc (l := .socketConnected 0)
        (.snoc (l := .beforeConnect 0 .connects)
          (.snoc (l := .getConnection)
            (.snoc (l := .getConnection) .nil ⟨⟨rfl, trivial⟩, by simp [Regular, init]⟩)
            ⟨⟨rfl, trivial⟩, by
              simp [Regular, act, getConnection, createStateFullConnection, init]⟩)
          ⟨⟨rfl, by decide⟩, by rfl⟩)
        ⟨⟨rfl, by exact ⟨0, by decide⟩⟩, by trivial⟩)
      ⟨⟨rfl, by exact ⟨0, by decide⟩⟩, by trivial⟩)

/-- Behind a veto the flag stays, and the caller waits for an attempt that is over; and a caller
gets a socket that has been closed while the callbacks were running. -/
theorem callers_stranded :
    (∃ s, Run step init [.getConnection, .beforeConnect 0 .vetoed] s ∧
      s.openingStateFullConnection = true ∧ s.attempts = [] ∧ s.pendingSockets = [0] ∧
      ¬s.Sound) ∧
    ∃ s, Run step init [.clientReconnect, .beforeConnect 0 .connects, .socketConnected 0,
        .socketClosed 0, .getConnection, .notified 0] s ∧
      s.settled = [(0, .resolved 0 true)] ∧ ¬s.Sound := by
  refine ⟨⟨_, .snoc (.snoc .nil ⟨rfl, trivial⟩) ⟨rfl, by decide⟩, rfl, rfl, rfl, ?_⟩,
    ⟨_, .snoc (.snoc (.snoc (.snoc (.snoc (.snoc .nil ⟨rfl, trivial⟩) ⟨rfl, by decide⟩)
      ⟨rfl, 0, by decide⟩) ⟨rfl, by decide⟩) ⟨rfl, trivial⟩) ⟨rfl, 0, by decide⟩, rfl, ?_⟩⟩
  · intro h
    exact h.waiting (by decide) rfl
  · intro h
    exact absurd (h.live 0 0 true (by decide)) (by decide)

end Connection

end Esnacc.Ts
