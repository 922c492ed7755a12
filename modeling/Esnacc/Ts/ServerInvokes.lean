import Esnacc.Ts.ClientInvokes

/-!
The calls of a `TSASN1Server` to its clients. All connections share one map of pending invokes,
which knows nothing about connections.
-/

namespace Esnacc.Ts

open Transition

/-- What the connection of a client does with what it is given. -/
inductive Sending
  | sent
  | failed
  | throws
  deriving DecidableEq, Repr

/-- What happens to a server. `connected` says that there is a connection for the client. -/
inductive ServerAction (κ : Type)
  | sendInvoke (target : κ) (encoded connected : Bool) (sending : Sending)
  | result (source : κ) (invokeID : ℤ)
  | error (source : κ) (invokedID : ℤ)
  | reject (source : κ) (invokedID : Option ℤ)
  | expire (call : ℕ)
  | pause
  | resume
  deriving DecidableEq, Repr

namespace ServerAction

variable {κ : Type}

/-- The connection on which an answer arrives, and the id it is for. -/
def answer : ServerAction κ → Option (κ × ℤ)
  | result source id | error source id | reject source (some id) => some (source, id)
  | _ => none

/-- Everything but the answers that arrive from other clients. -/
def concerns [DecidableEq κ] (c : κ) : ServerAction κ → Bool
  | result source _ | error source _ | reject source _ => source = c
  | _ => true

end ServerAction

namespace ServerStub

open Stub

variable {κ : Type}

/-- `encodeInvoke` takes an id, then `TSASN1Server.sendInvoke` runs. What it catches settles the
promise, but leaves the entry in the map. -/
def sendInvoke (s : Stub κ) (target : κ) (encoded connected : Bool) (sending : Sending) :
    Stub κ :=
  let s := s.getNextInvokeID
  let call := s.calls.length
  if !encoded || !s.roseProcessingAllowed || !connected then s.withoutEntry target
  else
    let s := s.withEntry target true
    match sending with
    | .sent => s
    | .failed => s.take s.invokeCounter (.unsent call)
    | .throws => { s with settled := s.settled ++ [(call, .unsent call)] }

def act (s : Stub κ) : ServerAction κ → Stub κ
  | .sendInvoke target encoded connected sending => sendInvoke s target encoded connected sending
  | .result source invokeID => s.onROSEResult source invokeID
  | .error source invokedID => s.onROSEError source invokedID
  | .reject source invokedID => s.onROSEReject source invokedID
  | .expire call => s.expire call
  | .pause => s.pauseRoseProcessing
  | .resume => s.resumeRoseProcessing

def step (s : Stub κ) (a : ServerAction κ) (s' : Stub κ) : Prop :=
  s' = act s a ∧ ∀ call, a = .expire call → call ∈ s.timers

end ServerStub

namespace Stub

variable {κ : Type}

/-- The client a call is for. -/
def targetOf (s : Stub κ) (call : ℕ) : Option κ := (s.calls[call]?).map Call.target

/-- What settles the promise of a call first; anything later has no effect. -/
def outcome (s : Stub κ) (call : ℕ) : Option (Cause κ) :=
  (s.settled.find? fun e => e.1 = call).map Prod.snd

/-- An answer that finds an entry comes from the client this invoke has been sent to. -/
def Addressed (s : Stub κ) (a : ServerAction κ) : Prop :=
  ∀ source id, a.answer = some (source, id) → ∀ p, s.pendingInvokes.get id = some p →
    s.targetOf p.call = some source

/-- No promise is settled by an answer from another client. -/
def Apart (s : Stub κ) : Prop :=
  ∀ call source kind id, (call, Cause.answer source kind id) ∈ s.settled →
    s.targetOf call = some source

/-! ### The calls grow -/

section Frames

variable (s : Stub κ)

theorem calls_pause : s.pauseRoseProcessing.calls = s.calls := by
  simp [pauseRoseProcessing, completeAllPendingOperations, foldl_complete]

theorem settled_pause : s.pauseRoseProcessing.settled =
    s.settled ++ s.pendingInvokes.map fun e => (e.2.call, .shutdown) :=
  (foldl_complete { s with roseProcessingAllowed := false } s.pendingInvokes).1

theorem settled_take (id : ℤ) (cause : Cause κ) :
    (s.take id cause).settled = s.settled ∨ ∃ p, s.pendingInvokes.get id = some p ∧
      (s.take id cause).settled = s.settled ++ [(p.call, cause)] := by
  rw [take]
  split
  · exact .inl rfl
  · next p hget => exact .inr ⟨p, hget, rfl⟩

theorem settled_expire (call : ℕ) :
    (s.expire call).settled = s.settled ∨
      ∃ call', (s.expire call).settled = s.settled ++ [(call', .timeout call)] := by
  rw [expire]
  split
  · exact .inl rfl
  · rw [onROSETimeout]
    split
    · exact .inl rfl
    · dsimp only
      split
      · exact .inr ⟨_, rfl⟩
      · exact .inl rfl

end Frames

end Stub

namespace ServerStub

open Stub

variable {κ : Type}

theorem calls_act (s : Stub κ) (a : ServerAction κ) : s.calls <+: (act s a).calls := by
  cases a with
  | sendInvoke target encoded connected sending =>
      change s.calls <+: (sendInvoke s target encoded connected sending).calls
      rw [sendInvoke]
      dsimp only
      split
      · exact List.prefix_append _ _
      · cases sending with
        | sent => exact List.prefix_append _ _
        | failed =>
            dsimp only
            rw [calls_take]
            exact List.prefix_append _ _
        | throws => exact List.prefix_append _ _
  | result source id => simp [act, onROSEResult]
  | error source id => simp [act, onROSEError]
  | reject source id => cases id <;> simp [act, onROSEReject]
  | expire call => simp [act]
  | pause => simp [act, calls_pause]
  | resume => exact List.prefix_rfl

theorem targetOf_act {s : Stub κ} {call : ℕ} {t : κ} (h : s.targetOf call = some t)
    (a : ServerAction κ) : (act s a).targetOf call = some t := by
  obtain ⟨new, hnew⟩ := calls_act s a
  rw [targetOf, Option.map_eq_some_iff] at h
  obtain ⟨c, hc, rfl⟩ := h
  rw [targetOf, ← hnew,
    List.getElem?_append_left (List.getElem?_eq_some_iff.1 hc).1, hc, Option.map_some]

/-- What one step settles with an answer. -/
theorem answer_of_act {s : Stub κ} {a : ServerAction κ} {call : ℕ} {source : κ} {kind : Answer}
    {id : ℤ} (h : (call, Cause.answer source kind id) ∈ (act s a).settled) :
    (call, Cause.answer source kind id) ∈ s.settled ∨
      a.answer = some (source, id) ∧ ∃ p, s.pendingInvokes.get id = some p ∧ p.call = call := by
  have htake {source' : κ} {kind' : Answer} {id' : ℤ}
      (h : (call, Cause.answer source kind id) ∈
        (s.take id' (.answer source' kind' id')).settled) :
      (call, Cause.answer source kind id) ∈ s.settled ∨
        (source' = source ∧ id' = id) ∧ ∃ p, s.pendingInvokes.get id = some p ∧ p.call = call := by
    rcases settled_take s id' (.answer source' kind' id') with heq | ⟨p, hget, heq⟩
    · exact .inl (heq ▸ h)
    · rw [heq, List.mem_append, List.mem_singleton] at h
      rcases h with h | h
      · exact .inl h
      · cases h
        exact .inr ⟨⟨rfl, rfl⟩, p, hget, rfl⟩
  cases a with
  | sendInvoke target encoded connected sending =>
      left
      change _ ∈ (sendInvoke s target encoded connected sending).settled at h
      rw [sendInvoke] at h
      dsimp only at h
      split at h
      · exact h
      · cases sending with
        | sent => exact h
        | failed =>
            dsimp only at h
            rcases settled_take (s.getNextInvokeID.withEntry target true)
              (s.getNextInvokeID.withEntry target true).invokeCounter
              (.unsent s.getNextInvokeID.calls.length) with heq | ⟨p, -, heq⟩
            · rw [heq] at h
              exact h
            · rw [heq, List.mem_append, List.mem_singleton] at h
              rcases h with h | h
              · exact h
              · cases h
        | throws =>
            dsimp only at h
            rw [List.mem_append, List.mem_singleton] at h
            rcases h with h | h
            · exact h
            · cases h
  | result source' id' =>
      rcases htake h with hold | ⟨⟨rfl, rfl⟩, hp⟩
      · exact .inl hold
      · exact .inr ⟨rfl, hp⟩
  | error source' id' =>
      rcases htake h with hold | ⟨⟨rfl, rfl⟩, hp⟩
      · exact .inl hold
      · exact .inr ⟨rfl, hp⟩
  | reject source' id' =>
      cases id' with
      | none => exact .inl h
      | some id' =>
          rcases htake h with hold | ⟨⟨rfl, rfl⟩, hp⟩
          · exact .inl hold
          · exact .inr ⟨rfl, hp⟩
  | expire call' =>
      left
      rcases settled_expire s call' with heq | ⟨call'', heq⟩
      · exact heq ▸ h
      · change _ ∈ (s.expire call').settled at h
        rw [heq, List.mem_append, List.mem_singleton] at h
        rcases h with h | h
        · exact h
        · cases h
  | pause =>
      left
      change _ ∈ s.pauseRoseProcessing.settled at h
      rw [settled_pause, List.mem_append] at h
      rcases h with h | h
      · exact h
      · obtain ⟨e, -, heq⟩ := List.mem_map.1 h
        cases heq
  | resume => exact .inl h

/-- One step. -/
theorem apart_act {s : Stub κ} {a : ServerAction κ} (h : s.Apart) (ha : s.Addressed a) :
    (act s a).Apart := by
  intro call source kind id hmem
  rcases answer_of_act hmem with hmem | ⟨hanswer, p, hget, rfl⟩
  · exact targetOf_act (h call source kind id hmem) a
  · exact targetOf_act (ha source id hanswer p hget) a

end ServerStub

/-! ### Two runs -/

namespace Stub

variable {κ : Type}

/-- The second state is what becomes of the first when answers of others are left out: for some
calls there is no difference, of the others there are more in the map. -/
structure Agrees (mine : ℕ → Bool) (s s' : Stub κ) : Prop where
  counter : s'.invokeCounter = s.invokeCounter
  allowed : s'.roseProcessingAllowed = s.roseProcessingAllowed
  calls : s'.calls = s.calls
  keys : (s'.pendingInvokes.map Prod.fst).Nodup
  keys' : (s.pendingInvokes.map Prod.fst).Nodup
  subset : ∀ e ∈ s.pendingInvokes, e ∈ s'.pendingInvokes
  entries : s'.pendingInvokes.filter (fun e => mine e.2.call) =
    s.pendingInvokes.filter fun e => mine e.2.call
  settled : s'.settled.filter (fun e => mine e.1) = s.settled.filter fun e => mine e.1

section Agrees

variable {mine : ℕ → Bool} {s s' : Stub κ}

theorem Agrees.refl_init : (init : Stub κ).Agrees mine init :=
  ⟨rfl, rfl, rfl, List.nodup_nil, List.nodup_nil, fun _ h => h, rfl, rfl⟩

/-- An entry that is only in the second map is for another call. -/
theorem Agrees.get (h : s.Agrees mine s') (id : ℤ) :
    s'.pendingInvokes.get id = s.pendingInvokes.get id ∨
      s.pendingInvokes.get id = none ∧
        ∃ p, s'.pendingInvokes.get id = some p ∧ mine p.call = false := by
  cases hget : s.pendingInvokes.get id with
  | some p =>
      have hmem := PendingInvokes.get_of_mem h.keys (h.subset _ (PendingInvokes.mem_of_get hget))
      exact .inl hmem
  | none =>
      cases hget' : s'.pendingInvokes.get id with
      | none => exact .inl rfl
      | some p =>
          refine .inr ⟨rfl, p, rfl, ?_⟩
          rw [Bool.eq_false_iff]
          intro hmine
          have hmem : (id, p) ∈ s'.pendingInvokes.filter fun e => mine e.2.call :=
            List.mem_filter.2 ⟨PendingInvokes.mem_of_get hget', hmine⟩
          rw [h.entries] at hmem
          exact PendingInvokes.get_eq_none.1 hget _ (List.mem_filter.1 hmem).1 rfl

theorem filter_delete (m : PendingInvokes) (id : ℤ) (p : ℤ × PendingInvoke → Bool) :
    (m.delete id).filter p = PendingInvokes.delete (m.filter p) id := by
  rw [PendingInvokes.delete, PendingInvokes.delete, List.filter_filter, List.filter_filter]
  exact List.filter_congr fun _ _ => Bool.and_comm _ _

/-- An entry is taken out of both maps. -/
theorem Agrees.delete (h : s.Agrees mine s') (id : ℤ) :
    Agrees mine { s with pendingInvokes := s.pendingInvokes.delete id }
      { s' with pendingInvokes := s'.pendingInvokes.delete id } where
  counter := h.counter
  allowed := h.allowed
  calls := h.calls
  keys := PendingInvokes.nodup_delete h.keys id
  keys' := PendingInvokes.nodup_delete h.keys' id
  subset := by
    intro e he
    obtain ⟨hmem, hkey⟩ := PendingInvokes.mem_delete.1 he
    exact PendingInvokes.mem_delete.2 ⟨h.subset e hmem, hkey⟩
  entries := by
    dsimp only
    rw [filter_delete, filter_delete, h.entries]
  settled := h.settled

theorem Agrees.complete (h : s.Agrees mine s') (p : PendingInvoke) (cause : Cause κ) :
    Agrees mine (s.complete p cause) (s'.complete p cause) where
  counter := h.counter
  allowed := h.allowed
  calls := h.calls
  keys := h.keys
  keys' := h.keys'
  subset := h.subset
  entries := h.entries
  settled := by
    simp only [Stub.complete, List.filter_append, h.settled]

/-- In the second state an entry for another call is settled. -/
theorem Agrees.complete_right (h : s.Agrees mine s') {p : PendingInvoke}
    (hp : mine p.call = false) (cause : Cause κ) : Agrees mine s (s'.complete p cause) where
  counter := h.counter
  allowed := h.allowed
  calls := h.calls
  keys := h.keys
  keys' := h.keys'
  subset := h.subset
  entries := h.entries
  settled := by
    simp only [Stub.complete, List.filter_append, h.settled, List.filter_singleton, hp,
      Bool.cond_false, List.append_nil]

theorem delete_of_get_none {id : ℤ} (hget : s.pendingInvokes.get id = none) :
    s.pendingInvokes.delete id = s.pendingInvokes := by
  rw [PendingInvokes.delete, List.filter_eq_self]
  intro e he
  exact decide_eq_true (PendingInvokes.get_eq_none.1 hget e he)

/-- Taking the entry with an id out of the second map only, when it is for another call. -/
theorem Agrees.delete_right (h : s.Agrees mine s') {id : ℤ}
    (hget : s.pendingInvokes.get id = none) :
    Agrees mine s { s' with pendingInvokes := s'.pendingInvokes.delete id } := by
  have hdelete := h.delete id
  rw [delete_of_get_none hget] at hdelete
  exact hdelete

theorem Agrees.take (h : s.Agrees mine s') (id : ℤ) (cause : Cause κ) :
    Agrees mine (s.take id cause) (s'.take id cause) := by
  rw [Stub.take, Stub.take]
  rcases h.get id with hsame | ⟨hnone, p, hget, hp⟩
  · rw [hsame]
    split
    · exact h
    · exact (h.delete id).complete _ _
  · rw [hnone, hget]
    exact (h.delete_right hnone).complete_right hp cause

theorem Agrees.expire (h : s.Agrees mine s') (call : ℕ) :
    Agrees mine (s.expire call) (s'.expire call) := by
  have hid : s'.idOf call = s.idOf call := by rw [idOf, idOf, h.calls]
  rw [Stub.expire, Stub.expire, hid]
  split
  · exact h
  · next id _ =>
      have htimers : Agrees mine { s with timers := s.timers.filter (· ≠ call) }
          { s' with timers := s'.timers.filter (· ≠ call) } :=
        ⟨h.counter, h.allowed, h.calls, h.keys, h.keys', h.subset, h.entries, h.settled⟩
      rw [onROSETimeout, onROSETimeout]
      rcases htimers.get id with hsame | ⟨hnone, p, hget, hp⟩
      · rw [hsame]
        split
        · exact htimers
        · dsimp only
          split
          · exact (htimers.delete id).complete _ _
          · exact htimers.delete id
      · rw [hnone, hget]
        dsimp only
        split
        · exact (htimers.delete_right hnone).complete_right hp _
        · exact htimers.delete_right hnone

theorem Agrees.pause (h : s.Agrees mine s') :
    Agrees mine s.pauseRoseProcessing s'.pauseRoseProcessing := by
  have hfold (s : Stub κ) := foldl_complete { s with roseProcessingAllowed := false }
    s.pendingInvokes
  have hfilter (m : PendingInvokes) :
      (m.map fun e => (e.2.call, (Cause.shutdown : Cause κ))).filter (fun e => mine e.1) =
        (m.filter fun e => mine e.2.call).map fun e => (e.2.call, .shutdown) := by
    rw [List.filter_map]
    rfl
  have hallowed (m : PendingInvokes) (s : Stub κ) : (m.foldl (fun s e => s.complete e.2 .shutdown)
      s).roseProcessingAllowed = s.roseProcessingAllowed := by
    induction m generalizing s with
    | nil => rfl
    | cons e m ih => exact ih _
  rw [pauseRoseProcessing, pauseRoseProcessing, completeAllPendingOperations,
    completeAllPendingOperations]
  constructor
  case counter => exact (hfold s').2.2.1.trans (h.counter.trans (hfold s).2.2.1.symm)
  case allowed =>
    exact (hallowed s'.pendingInvokes { s' with roseProcessingAllowed := false }).trans
      (hallowed s.pendingInvokes { s with roseProcessingAllowed := false }).symm
  case calls => exact (hfold s').2.1.trans (h.calls.trans (hfold s).2.1.symm)
  case keys => exact List.nodup_nil
  case keys' => exact List.nodup_nil
  case subset => exact fun _ he => he
  case entries => rfl
  case settled =>
    dsimp only
    rw [(hfold s').1, (hfold s).1, List.filter_append, List.filter_append, hfilter, hfilter,
      h.entries, h.settled]

theorem Agrees.withoutEntry (h : s.Agrees mine s') (target : κ) :
    Agrees mine (s.getNextInvokeID.withoutEntry target)
      (s'.getNextInvokeID.withoutEntry target) := by
  refine ⟨?_, h.allowed, ?_, h.keys, h.keys', h.subset, h.entries, h.settled⟩
  · simp only [Stub.withoutEntry, getNextInvokeID, h.counter]
  · simp only [Stub.withoutEntry, getNextInvokeID, h.counter, h.calls]

theorem Agrees.withEntry (h : s.Agrees mine s') (target : κ) (timer : Bool) :
    Agrees mine (s.getNextInvokeID.withEntry target timer)
      (s'.getNextInvokeID.withEntry target timer) := by
  have hdelete := h.delete s.getNextInvokeID.invokeCounter
  have hcounter : s'.getNextInvokeID.invokeCounter = s.getNextInvokeID.invokeCounter := by
    simp only [getNextInvokeID, h.counter]
  have hcalls : s'.getNextInvokeID.calls = s.getNextInvokeID.calls := h.calls
  constructor
  case counter => exact hcounter
  case allowed => exact h.allowed
  case calls => simp only [Stub.withEntry, hcounter, hcalls]
  case keys => exact PendingInvokes.nodup_set h.keys _ _
  case keys' => exact PendingInvokes.nodup_set h.keys' _ _
  case subset =>
    intro e he
    simp only [Stub.withEntry, hcounter, hcalls, PendingInvokes.mem_set] at he ⊢
    exact he.imp_left fun hold => ⟨h.subset e hold.1, hold.2⟩
  case entries =>
    simp only [Stub.withEntry, hcounter, hcalls, PendingInvokes.set, List.filter_append]
    exact congrArg (· ++ _) hdelete.entries
  case settled => exact h.settled

theorem Agrees.outcome (h : s.Agrees mine s') {call : ℕ}
    (hcall : mine call = true) : s'.outcome call = s.outcome call := by
  have hfind (l : List (ℕ × Cause κ)) :
      (l.filter fun e => mine e.1).find? (fun e => e.1 = call) = l.find? fun e => e.1 = call := by
    rw [List.find?_filter]
    congr 1
    funext e
    by_cases heq : e.1 = call
    · simp [heq, hcall]
    · simp [heq]
  rw [Stub.outcome, Stub.outcome, ← hfind s'.settled, ← hfind s.settled, h.settled]

end Agrees

end Stub

namespace ServerStub

open Stub

variable {κ : Type} {mine : ℕ → Bool} {s s' : Stub κ}

theorem agrees_act (h : s.Agrees mine s') (a : ServerAction κ) :
    (act s a).Agrees mine (act s' a) := by
  cases a with
  | sendInvoke target encoded connected sending =>
      change (sendInvoke s target encoded connected sending).Agrees mine
        (sendInvoke s' target encoded connected sending)
      have hentry := h.withEntry target true
      have hcounter := hentry.counter
      have hallowed : s'.getNextInvokeID.roseProcessingAllowed =
        s.getNextInvokeID.roseProcessingAllowed := h.allowed
      have hcalls : s'.getNextInvokeID.calls = s.getNextInvokeID.calls := h.calls
      rw [sendInvoke, sendInvoke]
      dsimp only
      rw [hallowed, hcalls]
      split
      · exact h.withoutEntry target
      · cases sending with
        | sent => exact hentry
        | failed =>
            dsimp only
            rw [hcounter]
            exact hentry.take _ _
        | throws =>
            refine ⟨hentry.counter, hentry.allowed, hentry.calls, hentry.keys, hentry.keys',
              hentry.subset, hentry.entries, ?_⟩
            dsimp only
            rw [List.filter_append, List.filter_append, hentry.settled]
  | result source id => exact h.take _ _
  | error source id => exact h.take _ _
  | reject source id =>
      cases id with
      | none => exact h
      | some id => exact h.take _ _
  | expire call => exact h.expire call
  | pause => exact h.pause
  | resume =>
      exact ⟨h.counter, rfl, h.calls, h.keys, h.keys', h.subset, h.entries, h.settled⟩

/-- An answer that settles the promise of another call is left out. -/
theorem agrees_skip (h : s.Agrees mine s') {id : ℤ} (cause : Cause κ)
    (hother : ∀ p, s.pendingInvokes.get id = some p → mine p.call = false) :
    (s.take id cause).Agrees mine s' := by
  rw [Stub.take]
  split
  · exact h
  · next p hget =>
      have hp := hother p hget
      have hentries : (s.pendingInvokes.delete id).filter (fun e => mine e.2.call) =
          s.pendingInvokes.filter fun e => mine e.2.call := by
        rw [filter_delete, PendingInvokes.delete, List.filter_eq_self]
        intro e he
        obtain ⟨hmem, hmine⟩ := List.mem_filter.1 he
        refine decide_eq_true fun hkey => ?_
        rw [PendingInvokes.eq_of_key h.keys' hmem (PendingInvokes.mem_of_get hget) hkey] at hmine
        rw [hp] at hmine
        cases hmine
      refine ⟨h.counter, h.allowed, h.calls, h.keys, PendingInvokes.nodup_delete h.keys' id,
        fun e he => h.subset e (PendingInvokes.mem_delete.1 he).1, ?_, ?_⟩
      · exact h.entries.trans hentries.symm
      · simp only [Stub.complete, List.filter_append, h.settled, List.filter_singleton, hp,
          Bool.cond_false, List.append_nil]

section Hyper

variable [DecidableEq κ]

/-- A run and what is left of it without the answers of the other clients. -/
theorem agrees_of_run {c : κ} {trace : List (ServerAction κ)} {s : Stub κ}
    (h : Run (restrict step Addressed) init trace s)
    (hmine : ∀ call t, s.targetOf call = some t → mine call = decide (t = c)) :
    s.Agrees mine ((trace.filter (ServerAction.concerns c)).foldl act init) := by
  induction h with
  | nil => exact .refl_init
  | @snoc trace s s' a _ hstep ih =>
      obtain ⟨⟨rfl, -⟩, haddressed⟩ := hstep
      have hagrees := ih fun call t ht => hmine call t (targetOf_act ht a)
      rw [List.filter_append, List.foldl_append]
      cases hconcerns : a.concerns c with
      | true =>
          rw [List.filter_singleton, hconcerns]
          exact agrees_act hagrees a
      | false =>
          rw [List.filter_singleton, hconcerns]
          change (act s a).Agrees mine _
          have hother {source : κ} {id : ℤ} (hanswer : a.answer = some (source, id))
              (hsource : source ≠ c) (p : PendingInvoke) (hget : s.pendingInvokes.get id = some p) :
              mine p.call = false := by
            have htarget := haddressed source id hanswer p hget
            rw [hmine _ _ (targetOf_act htarget a)]
            exact decide_eq_false hsource
          cases a with
          | sendInvoke | expire | pause | resume => cases hconcerns
          | result source id =>
              exact agrees_skip hagrees _ (hother rfl (of_decide_eq_false hconcerns))
          | error source id =>
              exact agrees_skip hagrees _ (hother rfl (of_decide_eq_false hconcerns))
          | reject source id =>
              cases id with
              | none => exact hagrees
              | some id =>
                  exact agrees_skip hagrees _ (hother rfl (of_decide_eq_false hconcerns))

end Hyper

end ServerStub

end Esnacc.Ts
