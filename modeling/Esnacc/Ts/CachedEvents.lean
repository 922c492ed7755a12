import Mathlib
import Esnacc.Lib.Transition

/-!
Events that a ROSE stub caches until they are dispatched. A handler runs inside the call that
hands the event over, so the calls are a stack: the loop of `dispatchEvents` goes on when the
handler of its last event has returned, whatever that one has done.
-/

namespace Esnacc.Ts.CachedEvents

open Transition

variable {ε : Type}

/-- A call that has not returned. -/
inductive Frame
  | handler
  | dispatchEvents
  deriving DecidableEq, Repr

structure State (ε : Type) where
  handleEvents : Bool
  cachedEvents : List ε
  frames : List Frame
  deriving DecidableEq, Repr

def State.init (handleEvents : Bool) : State ε := ⟨handleEvents, [], []⟩

/-- What `onEvent` has done with an event. -/
inductive Fate
  | cached
  | handled
  | notDecoded
  deriving DecidableEq, Repr

inductive Label (ε : Type)
  | inbound (event : ε) (fate : Fate)
  | dispatchEvents
  | stopEvents
  | flushEvents (events : List ε)
  | returned
  | next (event : ε) (fate : Fate)
  | ended
  deriving DecidableEq, Repr

/-- `onEvent`; an event that is decoded and has a method reaches the handler. `handleEvent` is the
flag of the invoke context. -/
def onEvent (reaches : ε → Bool) (s : State ε) (event : ε) (handleEvent : Bool) : State ε × Fate :=
  if !s.handleEvents && !handleEvent then
    ({ s with cachedEvents := s.cachedEvents ++ [event] }, .cached)
  else if reaches event then ({ s with frames := .handler :: s.frames }, .handled)
  else (s, .notDecoded)

/-- What can go on: a call from outside or from a handler, the return of a handler, or the next
pass of the loop. -/
inductive Action (ε : Type)
  | inbound (event : ε)
  | dispatchEvents
  | stopEvents
  | flushEvents
  | returns
  | loop
  deriving DecidableEq, Repr

/-- The loop of `dispatchEvents` is not what runs. -/
def State.isFree (s : State ε) : Bool := s.frames.head? != some .dispatchEvents

def act (reaches : ε → Bool) (s : State ε) : Action ε → Option (Label ε × State ε)
  | .inbound event =>
      if s.isFree then
        some (.inbound event (onEvent reaches s event false).2, (onEvent reaches s event false).1)
      else none
  | .dispatchEvents =>
      if s.isFree then some (.dispatchEvents, { s with frames := .dispatchEvents :: s.frames })
      else none
  | .stopEvents => if s.isFree then some (.stopEvents, { s with handleEvents := false }) else none
  | .flushEvents =>
      if s.isFree then some (.flushEvents s.cachedEvents, { s with cachedEvents := [] }) else none
  | .returns =>
      match s.frames with
      | .handler :: frames => some (.returned, { s with frames })
      | _ => none
  | .loop =>
      match s.frames, s.cachedEvents with
      | .dispatchEvents :: _, event :: cachedEvents =>
          some (.next event (onEvent reaches { s with cachedEvents } event true).2,
            (onEvent reaches { s with cachedEvents } event true).1)
      -- whatever the handlers have called in between
      | .dispatchEvents :: frames, [] => some (.ended, { s with handleEvents := true, frames })
      | _, _ => none

def Step (reaches : ε → Bool) (s : State ε) (l : Label ε) (s' : State ε) : Prop :=
  ∃ action, act reaches s action = some (l, s')

/-! ### What a trace tells -/

namespace Label

def arrived : Label ε → List ε
  | .inbound event _ => [event]
  | _ => []

/-- The event that has been taken up, for the handler or in vain. -/
def taken : Label ε → List ε
  | .inbound event fate | .next event fate => if fate = .cached then [] else [event]
  | _ => []

def handled : Label ε → List ε
  | .inbound event fate | .next event fate => if fate = .handled then [event] else []
  | _ => []

def flushed : Label ε → List ε
  | .flushEvents events => events
  | _ => []

end Label

/-- `stopEvents` has been called and `dispatchEvents` not since. -/
def Stopped (trace : List (Label ε)) : Prop :=
  ∃ before since, trace = before ++ .stopEvents :: since ∧ .dispatchEvents ∉ since

/-- Events are taken up in the order of arrival and each one once, and what is neither taken up nor
cached has been flushed. What is taken up is handled if it can be. -/
structure Kept (reaches : ε → Bool) (trace : List (Label ε)) (s : State ε) : Prop where
  order : (trace.flatMap Label.taken ++ s.cachedEvents).Sublist (trace.flatMap Label.arrived)
  lost : (trace.flatMap Label.taken ++ s.cachedEvents ++ trace.flatMap Label.flushed).Perm
    (trace.flatMap Label.arrived)
  handled : trace.flatMap Label.handled = (trace.flatMap Label.taken).filter reaches

/-- No event reaches a handler while the events are stopped. -/
def Quiet (trace : List (Label ε)) : Prop :=
  ∀ before l after, trace = before ++ l :: after → l.handled ≠ [] → ¬ Stopped before

/-- `stopEvents` is not called while a call of `dispatchEvents` has not returned. -/
def NotInDispatch (s : State ε) (l : Label ε) : Prop :=
  l = .stopEvents → .dispatchEvents ∉ s.frames

/-! ### One step -/

variable {reaches : ε → Bool} {s s' : State ε} {l : Label ε} {trace : List (Label ε)}

/-- What a step can do. -/
inductive Change (reaches : ε → Bool) (s : State ε) : Label ε → State ε → Prop
  | cached (event : ε) (hoff : s.handleEvents = false) :
      Change reaches s (.inbound event .cached)
        { s with cachedEvents := s.cachedEvents ++ [event] }
  | direct (event : ε) (fate : Fate) (frames : List Frame) (hon : s.handleEvents = true)
      (hfate : fate = if reaches event then .handled else .notDecoded)
      (hframes : .dispatchEvents ∈ frames → .dispatchEvents ∈ s.frames) :
      Change reaches s (.inbound event fate) { s with frames }
  | dispatchEvents :
      Change reaches s .dispatchEvents { s with frames := .dispatchEvents :: s.frames }
  | stopEvents : Change reaches s .stopEvents { s with handleEvents := false }
  | flushEvents : Change reaches s (.flushEvents s.cachedEvents) { s with cachedEvents := [] }
  | returned (frames : List Frame) (hframes : s.frames = .handler :: frames) :
      Change reaches s .returned { s with frames }
  | next (event : ε) (cachedEvents : List ε) (fate : Fate) (frames : List Frame)
      (hcached : s.cachedEvents = event :: cachedEvents)
      (hfate : fate = if reaches event then .handled else .notDecoded)
      (hin : .dispatchEvents ∈ s.frames) :
      Change reaches s (.next event fate) { s with cachedEvents, frames }
  | ended (frames : List Frame) (hframes : s.frames = .dispatchEvents :: frames)
      (hnone : s.cachedEvents = []) :
      Change reaches s .ended { s with handleEvents := true, frames }

theorem onEvent_stopped (event : ε) (hoff : s.handleEvents = false) :
    onEvent reaches s event false =
      ({ s with cachedEvents := s.cachedEvents ++ [event] }, .cached) := by
  simp [onEvent, hoff]

theorem onEvent_reached {event : ε} {handleEvent : Bool}
    (hon : s.handleEvents = true ∨ handleEvent = true) (hreaches : reaches event = true) :
    onEvent reaches s event handleEvent =
      ({ s with frames := .handler :: s.frames }, .handled) := by
  rcases hon with hon | hon <;> simp [onEvent, hon, hreaches]

theorem onEvent_missed {event : ε} {handleEvent : Bool}
    (hon : s.handleEvents = true ∨ handleEvent = true) (hreaches : reaches event = false) :
    onEvent reaches s event handleEvent = (s, .notDecoded) := by
  rcases hon with hon | hon <;> simp [onEvent, hon, hreaches]

theorem Step.change (h : Step reaches s l s') : Change reaches s l s' := by
  obtain ⟨action, h⟩ := h
  cases action with
  | inbound event =>
      rw [act] at h
      split_ifs at h
      cases h
      cases hon : s.handleEvents with
      | false =>
          rw [onEvent_stopped event hon]
          exact .cached event hon
      | true =>
          cases hreaches : reaches event with
          | false =>
              rw [onEvent_missed (Or.inl hon) hreaches]
              exact .direct event .notDecoded s.frames hon (by simp [hreaches]) id
          | true =>
              rw [onEvent_reached (Or.inl hon) hreaches]
              exact .direct event .handled (.handler :: s.frames) hon (by simp [hreaches])
                fun hmem => by simpa using hmem
  | dispatchEvents =>
      rw [act] at h
      split_ifs at h
      cases h
      exact .dispatchEvents
  | stopEvents =>
      rw [act] at h
      split_ifs at h
      cases h
      exact .stopEvents
  | flushEvents =>
      rw [act] at h
      split_ifs at h
      cases h
      exact .flushEvents
  | returns =>
      rw [act] at h
      split at h
      · next frames hframes =>
        cases h
        exact .returned frames hframes
      · cases h
  | loop =>
      rw [act] at h
      split at h
      · next frames event cachedEvents hframes hcached =>
        cases h
        have hin : .dispatchEvents ∈ s.frames := hframes ▸ List.mem_cons_self
        cases hreaches : reaches event with
        | false =>
            rw [onEvent_missed (Or.inr rfl) hreaches]
            exact .next event cachedEvents .notDecoded s.frames hcached (by simp [hreaches]) hin
        | true =>
            rw [onEvent_reached (Or.inr rfl) hreaches]
            exact .next event cachedEvents .handled (.handler :: s.frames) hcached
              (by simp [hreaches]) hin
      · next frames hframes hcached =>
        cases h
        exact .ended frames hframes hcached
      · cases h

/-! ### Nothing is lost -/

/-- What is cached or arrives is taken up, cached or flushed, in this order. -/
theorem Change.moves (h : Change reaches s l s')
    (hempty : s.handleEvents = true → s.cachedEvents = []) :
    s.cachedEvents ++ l.arrived = l.taken ++ s'.cachedEvents ++ l.flushed := by
  have hfate {fate : Fate} {event : ε}
      (h : fate = if reaches event then .handled else .notDecoded) : fate ≠ .cached := by
    rw [h]
    split <;> nofun
  cases h with
  | cached event hoff => simp [Label.arrived, Label.taken, Label.flushed]
  | direct event fate frames hon h hframes =>
      simp [Label.arrived, Label.taken, Label.flushed, hempty hon, hfate h]
  | next event cachedEvents fate frames hcached h hin =>
      simp [Label.arrived, Label.taken, Label.flushed, hcached, hfate h]
  | _ => simp [Label.arrived, Label.taken, Label.flushed]

theorem Change.handled_eq (h : Change reaches s l s') :
    l.handled = l.taken.filter reaches := by
  cases h with
  | cached event hoff => rfl
  | direct event fate frames _ hfate _ | next event _ fate frames _ hfate _ =>
      cases hreaches : reaches event <;> simp [Label.handled, Label.taken, hfate, hreaches]
  | _ => rfl

theorem Kept.snoc (h : Kept reaches trace s)
    (hmoves : s.cachedEvents ++ l.arrived = l.taken ++ s'.cachedEvents ++ l.flushed)
    (hhandled : l.handled = l.taken.filter reaches) : Kept reaches (trace ++ [l]) s' := by
  have hsnoc (f : Label ε → List ε) : (trace ++ [l]).flatMap f = trace.flatMap f ++ f l := by
    simp
  constructor
  · rw [hsnoc, hsnoc, List.append_assoc]
    -- what is flushed comes last, so that the rest keeps its order
    have hfirst : (l.taken ++ s'.cachedEvents).Sublist (s.cachedEvents ++ l.arrived) :=
      hmoves ▸ List.sublist_append_left _ _
    refine (hfirst.append_left _).trans ?_
    rw [← List.append_assoc]
    exact h.order.append (List.Sublist.refl _)
  · classical
    rw [List.perm_iff_count]
    intro a
    have hcount := List.perm_iff_count.1 h.lost a
    have hmoved := congrArg (List.count a) hmoves
    simp only [hsnoc, List.count_append] at hcount hmoved ⊢
    omega
  · rw [hsnoc, hsnoc, List.filter_append, h.handled, hhandled]

/-- Events are cached only while they are not handled. -/
structure Inv (reaches : ε → Bool) (trace : List (Label ε)) (s : State ε) : Prop where
  kept : Kept reaches trace s
  empty : s.handleEvents = true → s.cachedEvents = []

theorem inv_step (h : Inv reaches trace s) (hchange : Change reaches s l s') :
    Inv reaches (trace ++ [l]) s' := by
  refine ⟨h.kept.snoc (hchange.moves h.empty) hchange.handled_eq, fun hon => ?_⟩
  cases hchange with
  | cached event hoff =>
      rw [hoff] at hon
      cases hon
  | stopEvents => cases hon
  | flushEvents => rfl
  | next event cachedEvents fate frames hcached hfate hin =>
      have hnone := h.empty hon
      rw [hcached] at hnone
      cases hnone
  | ended frames hframes hnone => exact hnone
  | _ => exact h.empty hon

theorem inv_run {handleEvents : Bool} (h : Run (Step reaches) (.init handleEvents) trace s) :
    Inv reaches trace s := by
  refine h.invariant ⟨⟨List.Sublist.refl _, List.Perm.refl _, rfl⟩, fun _ => rfl⟩ ?_
  intro trace s l s' hinv hstep
  exact inv_step hinv hstep.change

/-! ### Nothing is handled while the events are stopped -/

theorem stopped_snoc : Stopped (trace ++ [l]) ↔
    l = .stopEvents ∨ Stopped trace ∧ l ≠ .dispatchEvents := by
  constructor
  · rintro ⟨before, since, heq, hnone⟩
    rcases List.eq_nil_or_concat since with rfl | ⟨since, last, rfl⟩
    · have hlast := (List.append_inj' heq rfl).2
      exact Or.inl (List.singleton_inj.mp hlast)
    · rw [List.concat_eq_append, ← List.cons_append, ← List.append_assoc] at heq
      obtain ⟨rfl, hlast⟩ := List.append_inj' heq rfl
      rw [List.concat_eq_append, List.mem_append, List.mem_singleton, not_or] at hnone
      rw [List.singleton_inj.mp hlast]
      exact Or.inr ⟨⟨before, since, rfl, hnone.1⟩, Ne.symm hnone.2⟩
  · rintro (rfl | ⟨⟨before, since, rfl, hnone⟩, hl⟩)
    · exact ⟨trace, [], rfl, List.not_mem_nil⟩
    · exact ⟨before, since ++ [l], by simp, by simp [hnone, Ne.symm hl]⟩

theorem quiet_snoc : Quiet (trace ++ [l]) ↔
    Quiet trace ∧ (l.handled ≠ [] → ¬ Stopped trace) := by
  constructor
  · intro h
    refine ⟨fun before l' after heq => ?_, h trace l [] rfl⟩
    exact h before l' (after ++ [l]) (by simp [heq])
  · rintro ⟨hquiet, hlast⟩ before l' after heq
    rcases List.eq_nil_or_concat after with rfl | ⟨after, last, rfl⟩
    · obtain ⟨rfl, hl⟩ := List.append_inj' heq rfl
      rw [← List.singleton_inj.mp hl]
      exact hlast
    · rw [List.concat_eq_append, ← List.cons_append, ← List.append_assoc] at heq
      exact hquiet before l' after (List.append_inj' heq rfl).1

/-- While the events are stopped they are cached, and no call of `dispatchEvents` is under way. -/
structure Silent (trace : List (Label ε)) (s : State ε) : Prop where
  quiet : Quiet trace
  off : Stopped trace → s.handleEvents = false ∧ .dispatchEvents ∉ s.frames

theorem silent_step (h : Silent trace s) (hchange : Change reaches s l s')
    (hok : NotInDispatch s l) : Silent (trace ++ [l]) s' := by
  obtain ⟨hquiet, hoff⟩ := h
  -- a step without a handler that leaves the flag and the pending loops as they are
  have hkeep (hnone : l.handled = []) (hl : l ≠ .stopEvents)
      (hon : s'.handleEvents = s.handleEvents)
      (hin : .dispatchEvents ∈ s'.frames → .dispatchEvents ∈ s.frames) :
      Silent (trace ++ [l]) s' := by
    refine ⟨quiet_snoc.2 ⟨hquiet, fun hsome => absurd hnone hsome⟩, fun hstop => ?_⟩
    have hpast := hoff ((stopped_snoc.1 hstop).resolve_left hl).1
    exact ⟨hon.trans hpast.1, fun hmem => hpast.2 (hin hmem)⟩
  -- a step that cannot be taken while the events are stopped
  have hnever (hl : l ≠ .stopEvents) (hrun : ¬ Stopped trace) : Silent (trace ++ [l]) s' :=
    ⟨quiet_snoc.2 ⟨hquiet, fun _ => hrun⟩,
      fun hstop => absurd ((stopped_snoc.1 hstop).resolve_left hl).1 hrun⟩
  cases hchange with
  | cached event hfalse => exact hkeep rfl nofun rfl id
  | direct event fate frames hon hfate hframes =>
      refine hnever nofun fun hstop => ?_
      rw [(hoff hstop).1] at hon
      cases hon
  | dispatchEvents =>
      refine ⟨quiet_snoc.2 ⟨hquiet, fun hsome => absurd rfl hsome⟩, fun hstop => ?_⟩
      exact absurd rfl ((stopped_snoc.1 hstop).resolve_left nofun).2
  | stopEvents =>
      exact ⟨quiet_snoc.2 ⟨hquiet, fun hsome => absurd rfl hsome⟩, fun _ => ⟨rfl, hok rfl⟩⟩
  | flushEvents => exact hkeep rfl nofun rfl id
  | returned frames hframes =>
      exact hkeep rfl nofun rfl fun hmem => hframes ▸ List.mem_cons_of_mem _ hmem
  | next event cachedEvents fate frames hcached hfate hin =>
      exact hnever nofun fun hstop => (hoff hstop).2 hin
  | ended frames hframes hnone =>
      exact hnever nofun fun hstop => (hoff hstop).2 (hframes ▸ List.mem_cons_self)

theorem silent_run {handleEvents : Bool}
    (h : Run (restrict (Step reaches) NotInDispatch) (.init handleEvents) trace s) :
    Silent trace s := by
  refine h.invariant ⟨fun before l after heq => ?_, ?_⟩ ?_
  · cases before <;> cases heq
  · rintro ⟨before, since, heq, -⟩
    cases before <;> cases heq
  · intro trace s l s' hsilent hstep
    exact silent_step hsilent hstep.1.change hstep.2

/-! ### A call of `stopEvents` inside of `dispatchEvents` is forgotten -/

def State.size (s : State ε) : ℕ := 2 * s.cachedEvents.length + s.frames.length

/-- Events are handled, or they will be when the loop has ended. -/
def State.Resumes (s : State ε) : Prop := s.handleEvents = true ∨ .dispatchEvents ∈ s.frames

theorem exists_step (reaches : ε → Bool) (h : s.frames ≠ []) :
    ∃ l s', Step reaches s l s' ∧ l ≠ .dispatchEvents ∧ s'.size < s.size ∧
      (s.Resumes → s'.Resumes) := by
  obtain ⟨handleEvents, cachedEvents, frames⟩ := s
  match frames, cachedEvents with
  | .handler :: frames, cachedEvents =>
      refine ⟨.returned, ⟨handleEvents, cachedEvents, frames⟩, ⟨.returns, rfl⟩, nofun, ?_, ?_⟩
      · simp [State.size]
      · simp [State.Resumes]
  | .dispatchEvents :: frames, [] =>
      refine ⟨.ended, ⟨true, [], frames⟩, ⟨.loop, rfl⟩, nofun, ?_, fun _ => Or.inl rfl⟩
      simp [State.size]
  | .dispatchEvents :: frames, event :: cachedEvents =>
      refine ⟨_, _, ⟨.loop, rfl⟩, nofun, ?_, fun _ => Or.inr ?_⟩
      · cases hreaches : reaches event with
        | false =>
            rw [onEvent_missed (Or.inr rfl) hreaches]
            simp [State.size]
        | true =>
            rw [onEvent_reached (Or.inr rfl) hreaches]
            simp only [State.size, List.length_cons]
            omega
      · cases hreaches : reaches event with
        | false => simp [onEvent_missed (Or.inr rfl) hreaches]
        | true => simp [onEvent_reached (Or.inr rfl) hreaches]

theorem exists_drain (reaches : ε → Bool) (s : State ε) :
    ∃ since s', Run (Step reaches) s since s' ∧ .dispatchEvents ∉ since ∧ s'.frames = [] ∧
      (s.Resumes → s'.handleEvents = true) := by
  induction hn : s.size using Nat.strong_induction_on generalizing s with
  | _ n ih =>
    by_cases hframes : s.frames = []
    · refine ⟨[], s, .nil, List.not_mem_nil, hframes, fun hresumes => ?_⟩
      exact hresumes.resolve_right (hframes ▸ List.not_mem_nil)
    · obtain ⟨l, s₁, hstep, hl, hsize, hresumes⟩ := exists_step reaches hframes
      obtain ⟨since, s', hrun, hnone, hempty, hon⟩ := ih s₁.size (hn ▸ hsize) s₁ rfl
      refine ⟨l :: since, s', (Run.single hstep).trans hrun, ?_, hempty, fun h => hon (hresumes h)⟩
      rw [List.mem_cons, not_or]
      exact ⟨Ne.symm hl, hnone⟩

/-- When the calls have returned, the next event is handled. -/
theorem exists_not_quiet {s₀ : State ε} {event : ε} (hrun : Run (Step reaches) s₀ trace s)
    (hevent : reaches event = true) (hfree : s.isFree = true)
    (hin : .dispatchEvents ∈ s.frames) :
    ∃ since s', Run (Step reaches) s₀ (trace ++ .stopEvents :: since) s' ∧
      ¬ Quiet (trace ++ .stopEvents :: since) := by
  have hstop : Step reaches s .stopEvents { s with handleEvents := false } :=
    ⟨.stopEvents, if_pos hfree⟩
  obtain ⟨since, s₁, hdrain, hnone, hempty, hon⟩ :=
    exists_drain reaches { s with handleEvents := false }
  have hnext : Step reaches s₁ (.inbound event .handled) { s₁ with frames := [.handler] } := by
    refine ⟨.inbound event, ?_⟩
    simp [act, State.isFree, hempty, onEvent_reached (Or.inl (hon (Or.inr hin))) hevent]
  -- the loop that was under way has set the flag at its end
  refine ⟨since ++ [.inbound event .handled], { s₁ with frames := [.handler] }, ?_,
    fun hquiet => ?_⟩
  · have hall := (((hrun.snoc hstop).trans hdrain).snoc hnext)
    simpa using hall
  · refine hquiet (trace ++ .stopEvents :: since) (.inbound event .handled) [] (by simp) nofun ?_
    exact ⟨trace, since, rfl, hnone⟩

/-! ### The exact condition -/

/-- The order and the number of the events are kept in every run. No event reaches a handler while
the events are stopped if `stopEvents` is not called inside of `dispatchEvents`; after such a call
one does as soon as it arrives. -/
theorem cachedEvents_exact (reaches : ε → Bool) (handleEvents : Bool) (trace : List (Label ε))
    (s : State ε) :
    (Run (Step reaches) (.init handleEvents) trace s → Kept reaches trace s) ∧
    (Run (restrict (Step reaches) NotInDispatch) (.init handleEvents) trace s →
      Kept reaches trace s ∧ Quiet trace) ∧
    ∀ event, reaches event = true → Run (Step reaches) (.init handleEvents) trace s →
      s.isFree = true → .dispatchEvents ∈ s.frames →
      ∃ since s', Run (Step reaches) (.init handleEvents) (trace ++ .stopEvents :: since) s' ∧
        ¬ Quiet (trace ++ .stopEvents :: since) :=
  ⟨fun hrun => (inv_run hrun).kept,
    fun hrun => ⟨(inv_run hrun.of_restrict).kept, (silent_run hrun).quiet⟩,
    fun _ hevent hrun hfree hin => exists_not_quiet hrun hevent hfree hin⟩

/-- The first event waits for `dispatchEvents`, the second comes after `stopEvents`. -/
theorem cachedEvents_exact_stopped :
    Kept (fun _ => true)
      [.inbound 1 .cached, .dispatchEvents, .next 1 .handled, .returned, .ended, .stopEvents,
        .inbound 2 .cached] (⟨false, [2], []⟩ : State ℕ) ∧
    @Quiet ℕ
      [.inbound 1 .cached, .dispatchEvents, .next 1 .handled, .returned, .ended, .stopEvents,
        .inbound 2 .cached] := by
  refine (cachedEvents_exact (fun _ => true) false _ _).2.1 ?_
  have h₁ : Run (restrict (Step fun _ : ℕ => true) NotInDispatch) (.init false)
      [.inbound 1 .cached] ⟨false, [1], []⟩ := .single ⟨⟨.inbound 1, rfl⟩, nofun⟩
  have h₂ := h₁.snoc ⟨⟨.dispatchEvents, rfl⟩, nofun⟩
  have h₃ := h₂.snoc ⟨⟨.loop, rfl⟩, nofun⟩
  have h₄ := h₃.snoc ⟨⟨.returns, rfl⟩, nofun⟩
  have h₅ := h₄.snoc ⟨⟨.loop, rfl⟩, nofun⟩
  have h₆ := h₅.snoc ⟨⟨.stopEvents, rfl⟩, fun _ => List.not_mem_nil⟩
  exact h₆.snoc ⟨⟨.inbound 2, rfl⟩, nofun⟩

/-- The handler of the first event calls `stopEvents`, and the second is handled when it has
returned. -/
theorem not_quiet_stopInHandler : ¬ ∀ (trace : List (Label ℕ)) (s : State ℕ),
    Run (Step fun _ => true) (.init false) trace s →
      Kept (fun _ => true) trace s ∧ Quiet trace := by
  intro h
  have h₁ : Run (Step fun _ : ℕ => true) (.init false) [.inbound 1 .cached] ⟨false, [1], []⟩ :=
    .single ⟨.inbound 1, rfl⟩
  have h₂ := h₁.snoc ⟨.inbound 2, rfl⟩
  have h₃ := h₂.snoc ⟨.dispatchEvents, rfl⟩
  have h₄ := h₃.snoc ⟨.loop, rfl⟩
  have h₅ := h₄.snoc ⟨.stopEvents, rfl⟩
  have h₆ := h₅.snoc ⟨.returns, rfl⟩
  have h₇ := h₆.snoc ⟨.loop, rfl⟩
  have hquiet : @Quiet ℕ
      [.inbound 1 .cached, .inbound 2 .cached, .dispatchEvents, .next 1 .handled, .stopEvents,
        .returned, .next 2 .handled] := (h _ _ h₇).2
  refine hquiet [.inbound 1 .cached, .inbound 2 .cached, .dispatchEvents, .next 1 .handled,
    .stopEvents, .returned] (.next 2 .handled) [] rfl nofun ?_
  exact ⟨[.inbound 1 .cached, .inbound 2 .cached, .dispatchEvents, .next 1 .handled],
    [.returned], rfl, by simp⟩

end Esnacc.Ts.CachedEvents
