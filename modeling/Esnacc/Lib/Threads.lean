import Esnacc.Lib.Transition

/-!
Threads that share a state. A system is given by what a thread can do next: the new
shared state, the threads that take the place of the one that acts, and a label.
The threads of a state form a multiset. What the environment decides is a choice.
-/

namespace Threads

/-- `isCall` says which threads the environment may start, `owner` names those of
which there may be only one at a time. -/
structure System (S T C L : Type) where
  act : S → C → T → Option (S × List T × L)
  isCall : T → Bool
  owner : T → Option ℕ
  started : L

structure State (S T : Type) where
  shared : S
  threads : Multiset T

variable {S T C L : Type} (sys : System S T C L)

inductive Step : State S T → L → State S T → Prop
  | call {sh : S} {threads : Multiset T} (t : T) (hcall : sys.isCall t)
      (howner : ∀ t' ∈ threads, sys.owner t' ≠ none → sys.owner t' ≠ sys.owner t) :
      Step ⟨sh, threads⟩ sys.started ⟨sh, t ::ₘ threads⟩
  | act {sh sh' : S} {threads : Multiset T} {t : T} {next : List T} {l : L} (choice : C)
      (hact : sys.act sh choice t = some (sh', next, l)) :
      Step ⟨sh, t ::ₘ threads⟩ l ⟨sh', ↑next + threads⟩

/-! ### Schedules -/

/-- A thread that is started, or the choice for the thread at a position. -/
inductive Move (T C : Type)
  | call (t : T)
  | act (i : ℕ) (choice : C)

/-- One step of a schedule, with the threads in a list. -/
def move (sh : S) (threads : List T) : Move T C → Option (L × S × List T)
  | .call t =>
      if sys.isCall t ∧ ∀ t' ∈ threads, sys.owner t' ≠ none → sys.owner t' ≠ sys.owner t then
        some (sys.started, sh, t :: threads)
      else none
  | .act i choice =>
      (threads[i]?).bind fun t =>
        (sys.act sh choice t).map fun outcome =>
          (outcome.2.2, outcome.1, outcome.2.1 ++ threads.eraseIdx i)

/-- The labels of a schedule and the state it ends in. -/
def play : List (Move T C) → S × List T → Option (List L × S × List T)
  | [], s => some ([], s)
  | m :: moves, s =>
      (move sys s.1 s.2 m).bind fun next =>
        (play moves next.2).map fun last => (next.1 :: last.1, last.2)

variable {sys}

theorem step_of_move {sh sh' : S} {threads threads' : List T} {m : Move T C} {l : L}
    (h : move sys sh threads m = some (l, sh', threads')) :
    Step sys ⟨sh, ↑threads⟩ l ⟨sh', ↑threads'⟩ := by
  cases m with
  | call t =>
      simp only [move, Option.ite_none_right_eq_some] at h
      obtain ⟨⟨hcall, howner⟩, h⟩ := h
      cases h
      exact .call t hcall fun t' ht' => howner t' (Multiset.mem_coe.mp ht')
  | act i choice =>
      simp only [move, Option.bind_eq_some_iff, Option.map_eq_some_iff] at h
      obtain ⟨t, ht, ⟨sh₁, next, l₁⟩, hact, h⟩ := h
      cases h
      have hperm : (↑threads : Multiset T) = t ::ₘ ↑(threads.eraseIdx i) := by
        obtain ⟨hlt, rfl⟩ := List.getElem?_eq_some_iff.mp ht
        exact Multiset.coe_eq_coe.mpr (List.getElem_cons_eraseIdx_perm hlt).symm
      rw [hperm, ← Multiset.coe_add]
      exact .act choice hact

/-- A schedule that can be played is a run. -/
theorem run_of_play {moves : List (Move T C)} {sh sh' : S} {threads threads' : List T}
    {trace : List L} (h : play sys moves (sh, threads) = some (trace, sh', threads')) :
    Transition.Run (Step sys) ⟨sh, ↑threads⟩ trace ⟨sh', ↑threads'⟩ := by
  induction moves generalizing sh threads trace with
  | nil =>
      cases h
      exact .nil
  | cons m moves ih =>
      simp only [play, Option.bind_eq_some_iff, Option.map_eq_some_iff] at h
      obtain ⟨⟨l, sh₁, threads₁⟩, hmove, ⟨trace₁, sh₂, threads₂⟩, hplay, h⟩ := h
      cases h
      exact (Transition.Run.single (step_of_move hmove)).trans (ih hplay)

/-- A schedule of which every step meets a condition. -/
def playWhile (sys : System S T C L) (ok : S → List T → L → Bool) :
    List (Move T C) → S × List T → Option (List L × S × List T)
  | [], s => some ([], s)
  | m :: moves, s =>
      (move sys s.1 s.2 m).bind fun next =>
        if ok s.1 s.2 next.1 then
          (playWhile sys ok moves next.2).map fun last => (next.1 :: last.1, last.2)
        else none

theorem run_of_playWhile {ok : State S T → L → Prop} {check : S → List T → L → Bool}
    (hcheck : ∀ sh threads l, check sh threads l = true → ok ⟨sh, ↑threads⟩ l)
    {moves : List (Move T C)} {sh sh' : S} {threads threads' : List T} {trace : List L}
    (h : playWhile sys check moves (sh, threads) = some (trace, sh', threads')) :
    Transition.Run (Transition.restrict (Step sys) ok) ⟨sh, ↑threads⟩ trace ⟨sh', ↑threads'⟩ := by
  induction moves generalizing sh threads trace with
  | nil =>
      cases h
      exact .nil
  | cons m moves ih =>
      simp only [playWhile, Option.bind_eq_some_iff, Option.ite_none_right_eq_some,
        Option.map_eq_some_iff] at h
      obtain ⟨⟨l, sh₁, threads₁⟩, hmove, hok, ⟨trace₁, sh₂, threads₂⟩, hplay, h⟩ := h
      cases h
      exact (Transition.Run.single ⟨step_of_move hmove, hcheck _ _ _ hok⟩).trans (ih hplay)

/-! ### Invariants -/

/-- What a system keeps true of its shared state and of each of its threads. -/
theorem Step.forall_threads {P : S → Prop} {Q : S → T → Prop} {s s' : State S T} {l : L}
    (hstep : Step sys s l s') (hshared : P s.shared) (hthreads : ∀ t ∈ s.threads, Q s.shared t)
    (hcall : ∀ t, sys.isCall t → Q s.shared t)
    (hact : ∀ choice t sh' next, P s.shared → Q s.shared t →
      sys.act s.shared choice t = some (sh', next, l) →
      P sh' ∧ (∀ t' ∈ next, Q sh' t') ∧ ∀ t', Q s.shared t' → Q sh' t') :
    P s'.shared ∧ ∀ t ∈ s'.threads, Q s'.shared t := by
  cases hstep with
  | call t ht howner =>
      refine ⟨hshared, fun t' ht' => ?_⟩
      rcases Multiset.mem_cons.mp ht' with rfl | ht'
      · exact hcall _ ht
      · exact hthreads t' ht'
  | @act sh sh' threads t next l choice h =>
      obtain ⟨hsh', hnext, hothers⟩ :=
        hact choice t sh' next hshared (hthreads t (Multiset.mem_cons_self t threads)) h
      refine ⟨hsh', fun t' ht' => ?_⟩
      rcases Multiset.mem_add.mp ht' with ht' | ht'
      · exact hnext t' (Multiset.mem_coe.mp ht')
      · exact hothers t' (hthreads t' (Multiset.mem_cons_of_mem ht'))

/-- The numbers that the threads own, each of them once. -/
def OwnersDistinct (sys : System S T C L) (s : State S T) : Prop :=
  (s.threads.filterMap sys.owner).Nodup

/-- No number is owned twice if a thread that acts passes its own on at most. -/
theorem Step.ownersDistinct {s s' : State S T} {l : L} (hstep : Step sys s l s')
    (h : OwnersDistinct sys s)
    (hact : ∀ sh choice t sh' next l, sys.act sh choice t = some (sh', next, l) →
      (next.filterMap sys.owner).Sublist (sys.owner t).toList) : OwnersDistinct sys s' := by
  cases hstep with
  | @call sh threads t ht howner =>
      cases hp : sys.owner t with
      | none =>
          rw [OwnersDistinct, Multiset.filterMap_cons_none _ _ hp]
          exact h
      | some p =>
          rw [OwnersDistinct, Multiset.filterMap_cons_some _ _ _ hp, Multiset.nodup_cons]
          refine ⟨fun hmem => ?_, h⟩
          obtain ⟨t', ht', hp'⟩ := (Multiset.mem_filterMap _ _).mp hmem
          exact howner t' ht' (by simp [hp']) (hp'.trans hp.symm)
  | @act sh sh' threads t next l choice hstep =>
      refine Multiset.nodup_of_le ?_ h
      have hnext := (hact _ _ _ _ _ _ hstep).subperm
      have hsplit : (t ::ₘ threads).filterMap sys.owner =
          ↑(sys.owner t).toList + threads.filterMap sys.owner := by
        cases hp : sys.owner t with
        | none =>
            rw [Multiset.filterMap_cons_none _ _ hp]
            simp
        | some p =>
            rw [Multiset.filterMap_cons_some _ _ _ hp]
            simp
      rw [hsplit, Multiset.filterMap_add, Multiset.filterMap_coe]
      exact add_le_add_left (Multiset.coe_le.mpr hnext) _

end Threads
