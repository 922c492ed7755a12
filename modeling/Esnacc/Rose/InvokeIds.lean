import Esnacc.Rose.PendingTable

/-!
Invoke ids over a run of any length. An invoke fetches its id, enters the table of
pending operations with it, and leaves the table again; results arrive for any id
at any time.
-/

namespace Esnacc

namespace InvokeIds

open PendingTable

/-- Whether an invoke has only its id, is pending with the object it was given, or
has left the table. -/
inductive Phase
  | issued
  | pending (u : ℕ)
  | removed
  deriving DecidableEq, Repr

structure Invoke where
  invokeID : ℤ
  phase : Phase
  deriving DecidableEq, Repr

/-- All invokes so far, in the order in which they fetched their ids. -/
structure State where
  table : Table
  invokes : List Invoke

def State.init : State := ⟨.init, []⟩

/-- The invoke at position `i` is pending with the object `u`. -/
def State.Pending (s : State) (i : ℕ) (invokeID : ℤ) (u : ℕ) : Prop :=
  s.invokes[i]? = some ⟨invokeID, .pending u⟩

inductive Label
  | issue
  | add (invokeID : ℤ)
  | remove (i : ℕ)
  | result (invokeID : ℤ)
  deriving DecidableEq, Repr

inductive Step : State → Label → State → Prop
  | issue (s : State) :
      Step s .issue
        ⟨s.table.getNextInvokeID.2, s.invokes ++ [⟨s.table.getNextInvokeID.1, .issued⟩]⟩
  | add {s : State} {i : ℕ} {invokeID : ℤ} (h : s.invokes[i]? = some ⟨invokeID, .issued⟩) :
      Step s (.add invokeID)
        ⟨(s.table.addPendingOperation invokeID).2,
          s.invokes.set i ⟨invokeID, .pending (s.table.addPendingOperation invokeID).1⟩⟩
  | remove {s : State} {i : ℕ} {invokeID : ℤ} {u : ℕ} {id : ℤ}
      (h : s.invokes[i]? = some ⟨invokeID, .pending u⟩) (hid : s.table.idOf u = some id) :
      Step s (.remove i)
        ⟨s.table.removePendingOperation id, s.invokes.set i ⟨invokeID, .removed⟩⟩
  | result {s : State} {invokeID : ℤ} {u : ℕ} (message : Message)
      (h : s.table.find invokeID = some u) :
      Step s (.result invokeID)
        ⟨s.table.modify u fun op => op.complete message.lRoseResult (some message), s.invokes⟩

/-- Pending invokes carry different ids, no id is 0 or that of events, and the
object that a result for an id would complete is the one of the invoke that was
sent with it, and of no other. -/
structure Distinct (s : State) : Prop where
  ids : ∀ inv ∈ s.invokes, inv.invokeID ≠ 0 ∧ inv.invokeID ≠ 99999
  differ : ∀ i j invokeID u v, s.Pending i invokeID u →
    s.Pending j invokeID v → i = j
  answered : ∀ invokeID u, s.table.find invokeID = some u →
    ∃ i, s.Pending i invokeID u ∧
      ∀ j id, s.Pending j id u → j = i
  waits : ∀ i invokeID u, s.Pending i invokeID u →
    s.table.find invokeID = some u

/-- An invoke enters the table under an id that nothing in it has. -/
def Fresh (s : State) : Label → Prop
  | .add invokeID => s.table.find invokeID = none
  | .issue => True
  | .remove _ => True
  | .result _ => True

/-- What links the invokes to the objects of the table. -/
structure Inv (s : State) : Prop where
  good : s.table.Good
  range : ∀ inv ∈ s.invokes, 1 ≤ inv.invokeID ∧ inv.invokeID ≤ 99997
  owner : ∀ u ∈ s.table.pending, ∃ i invokeID, s.Pending i invokeID u
  object : ∀ i invokeID u, s.Pending i invokeID u →
    u ∈ s.table.pending ∧ s.table.idOf u = some invokeID
  only : ∀ i j id id' u, s.Pending i id u →
    s.Pending j id' u → i = j

theorem Inv.distinct {s : State} (h : Inv s) : Distinct s where
  ids inv hinv := by
    have hr := h.range inv hinv
    omega
  differ i j invokeID u v hi hj := by
    obtain ⟨hu, hidu⟩ := h.object i invokeID u hi
    obtain ⟨hv, hidv⟩ := h.object j invokeID v hj
    obtain rfl := h.good.unique u hu v hv (hidu.trans hidv.symm)
    exact h.only i j _ _ u hi hj
  answered invokeID u hfind := by
    obtain ⟨hu, hid⟩ := (Table.find_eq_some h.good).mp hfind
    obtain ⟨i, id, hi⟩ := h.owner u hu
    have hid' := (h.object i id u hi).2
    obtain rfl : id = invokeID := Option.some.inj (hid'.symm.trans hid)
    exact ⟨i, hi, fun j id' hj => h.only j i id' id u hj hi⟩
  waits i invokeID u hi := (Table.find_eq_some h.good).mpr (h.object i invokeID u hi)

theorem Inv.issue {s : State} (h : Inv s) :
    Inv ⟨s.table.getNextInvokeID.2, s.invokes ++ [⟨s.table.getNextInvokeID.1, .issued⟩]⟩ := by
  have hnext : 1 ≤ s.table.getNextInvokeID.1 ∧ s.table.getNextInvokeID.1 ≤ 99997 := by
    have hc := h.good.counter
    simp only [Table.getNextInvokeID]
    split <;> omega
  have hget {i : ℕ} {id : ℤ} {u : ℕ}
      (hi : (⟨s.table.getNextInvokeID.2,
        s.invokes ++ [⟨s.table.getNextInvokeID.1, .issued⟩]⟩ : State).Pending i id u) :
      s.Pending i id u := by
    unfold State.Pending at hi ⊢
    rcases lt_or_ge i s.invokes.length with hlt | hge
    · rwa [List.getElem?_append_left hlt] at hi
    · rw [List.getElem?_append_right hge, List.getElem?_singleton] at hi
      split at hi
      · cases hi
      · cases hi
  refine ⟨⟨⟨by have := hnext.1; exact this.trans' (by decide), hnext.2⟩, h.good.exist,
    h.good.unique⟩, ?_, ?_, ?_, ?_⟩
  · intro inv hinv
    rcases List.mem_append.mp hinv with hinv | hinv
    · exact h.range inv hinv
    · rw [List.mem_singleton.mp hinv]
      exact hnext
  · intro u hu
    obtain ⟨i, id, hi⟩ := h.owner u hu
    exact ⟨i, id, (List.getElem?_append_left (List.getElem?_eq_some_iff.mp hi).1).trans hi⟩
  · exact fun i id u hi => h.object i id u (hget hi)
  · exact fun i j id id' u hi hj => h.only i j id id' u (hget hi) (hget hj)

/-- Which invokes are pending when one of them has gone on. -/
theorem pending_set {s : State} {i : ℕ} {inv : Invoke} (hi : s.invokes[i]? = some inv)
    (t : Table) (next : Invoke) (j : ℕ) (id : ℤ) (u : ℕ) :
    (⟨t, s.invokes.set i next⟩ : State).Pending j id u ↔
      if j = i then next = ⟨id, .pending u⟩ else s.Pending j id u := by
  unfold State.Pending
  rw [List.getElem?_set]
  have hlt : i < s.invokes.length := (List.getElem?_eq_some_iff.mp hi).1
  by_cases hji : j = i
  · subst hji
    simp [hlt]
  · simp [hji, Ne.symm hji]

theorem range_set {s : State} (h : Inv s) {i : ℕ} {id : ℤ} {phase : Phase}
    (hi : s.invokes[i]? = some ⟨id, phase⟩) (next : Phase) :
    ∀ inv ∈ s.invokes.set i ⟨id, next⟩, 1 ≤ inv.invokeID ∧ inv.invokeID ≤ 99997 := by
  intro inv hinv
  rcases List.mem_or_eq_of_mem_set hinv with hinv | rfl
  · exact h.range inv hinv
  · exact h.range ⟨id, phase⟩ (List.mem_of_getElem? hi)

theorem Inv.add {s : State} (h : Inv s) {i : ℕ} {invokeID : ℤ}
    (hi : s.invokes[i]? = some ⟨invokeID, .issued⟩) (hfresh : s.table.find invokeID = none) :
    Inv ⟨(s.table.addPendingOperation invokeID).2,
      s.invokes.set i ⟨invokeID, .pending (s.table.addPendingOperation invokeID).1⟩⟩ := by
  have hgood := h.good.add hfresh
  rw [Table.addPendingOperation_of_none hfresh] at hgood ⊢
  have hold {u : ℕ} (hu : u ∈ s.table.pending) := Table.idOf_append (t := s.table)
    (.create invokeID) (h.good.exist u hu)
  have hnew := Table.idOf_new s.table (.create invokeID)
  have hne {u : ℕ} (hu : u ∈ s.table.pending) : u ≠ s.table.objects.length :=
    (h.good.exist u hu).ne
  have hpending := pending_set hi
  refine ⟨hgood, range_set h hi _, ?_, ?_, ?_⟩
  · intro u hu
    rcases List.mem_append.mp hu with hu | hu
    · obtain ⟨j, id, hj⟩ := h.owner u hu
      refine ⟨j, id, (hpending _ _ j id u).mpr ?_⟩
      have hji : j ≠ i := by
        rintro rfl
        cases hj.symm.trans hi
      rwa [if_neg hji]
    · rw [List.mem_singleton.mp hu]
      exact ⟨i, invokeID, (hpending _ _ i invokeID _).mpr (by rw [if_pos rfl])⟩
  · intro j id u hj
    have hj := (hpending _ _ j id u).mp hj
    split at hj
    · obtain ⟨rfl, rfl⟩ : invokeID = id ∧ s.table.objects.length = u := by simpa using hj
      exact ⟨List.mem_append_right _ (List.mem_singleton_self _), hnew⟩
    · obtain ⟨hu, hid⟩ := h.object j id u hj
      exact ⟨List.mem_append_left _ hu, (hold hu).trans hid⟩
  · intro j k id id' u hj hk
    have hj := (hpending _ _ j id u).mp hj
    have hk := (hpending _ _ k id' u).mp hk
    split at hj <;> split at hk
    · next hj' hk' => exact hj'.trans hk'.symm
    · obtain ⟨-, rfl⟩ : invokeID = id ∧ s.table.objects.length = u := by simpa using hj
      exact absurd rfl (hne (h.object k id' _ hk).1)
    · obtain ⟨-, rfl⟩ : invokeID = id' ∧ s.table.objects.length = u := by simpa using hk
      exact absurd rfl (hne (h.object j id _ hj).1)
    · exact h.only j k id id' u hj hk

theorem Inv.remove {s : State} (h : Inv s) {i : ℕ} {invokeID : ℤ} {u : ℕ} {id : ℤ}
    (hi : s.invokes[i]? = some ⟨invokeID, .pending u⟩) (hid : s.table.idOf u = some id) :
    Inv ⟨s.table.removePendingOperation id, s.invokes.set i ⟨invokeID, .removed⟩⟩ := by
  have hmem {v : ℕ} := @Table.mem_removePendingOperation s.table id v
  have hu := (h.object i invokeID u hi).1
  have hpending {j : ℕ} {id' : ℤ} {v : ℕ} := pending_set hi
    (s.table.removePendingOperation id) ⟨invokeID, .removed⟩ j id' v
  have hback {j : ℕ} {id' : ℤ} {v : ℕ}
      (hj : (⟨s.table.removePendingOperation id,
        s.invokes.set i ⟨invokeID, .removed⟩⟩ : State).Pending j id' v) :
      j ≠ i ∧ s.Pending j id' v := by
    have hj := hpending.mp hj
    split at hj
    · cases hj
    · next hji => exact ⟨hji, hj⟩
  refine ⟨h.good.remove id, range_set h hi _, ?_, ?_, ?_⟩
  · intro v hv
    obtain ⟨hv, hne⟩ := hmem.mp hv
    obtain ⟨j, id', hj⟩ := h.owner v hv
    refine ⟨j, id', hpending.mpr ?_⟩
    have hji : j ≠ i := by
      rintro rfl
      have hinv : (⟨invokeID, .pending u⟩ : Invoke) = ⟨id', .pending v⟩ :=
        Option.some.inj (hi.symm.trans hj)
      obtain ⟨-, rfl⟩ : invokeID = id' ∧ u = v := by simpa using hinv
      exact hne hid
    rwa [if_neg hji]
  · intro j id' v hj
    obtain ⟨hji, hj⟩ := hback hj
    obtain ⟨hv, hidv⟩ := h.object j id' v hj
    refine ⟨hmem.mpr ⟨hv, fun hsame => hji ?_⟩, hidv⟩
    obtain rfl := h.good.unique v hv u hu (hsame.trans hid.symm)
    exact h.only j i id' invokeID v hj hi
  · exact fun j k id₁ id₂ v hj hk => h.only j k id₁ id₂ v (hback hj).2 (hback hk).2

theorem Inv.result {s : State} (h : Inv s) (u : ℕ) (message : Message) :
    Inv ⟨s.table.modify u fun op => op.complete message.lRoseResult (some message),
      s.invokes⟩ := by
  have hid (v : ℕ) : (s.table.modify u fun op =>
      op.complete message.lRoseResult (some message)).idOf v = s.table.idOf v :=
    Table.idOf_modify s.table u v fun _ => rfl
  refine ⟨⟨h.good.counter, ?_, ?_⟩, h.range, h.owner, ?_, h.only⟩
  · intro v hv
    simpa [Table.modify] using h.good.exist v hv
  · intro v hv w hw hvw
    rw [hid, hid] at hvw
    exact h.good.unique v hv w hw hvw
  · intro i id v hi
    rw [hid]
    exact h.object i id v hi

theorem Inv.step {s s' : State} {l : Label} (h : Inv s) (hstep : Step s l s')
    (hfresh : Fresh s l) : Inv s' := by
  cases hstep with
  | issue => exact h.issue
  | add hi => exact h.add hi hfresh
  | remove hi hid => exact h.remove hi hid
  | result message hu => exact h.result _ message

theorem inv_init : Inv .init :=
  ⟨Table.good_init, by simp [State.init], by simp [State.init, Table.init],
    by simp [State.init, State.Pending], by simp [State.init, State.Pending]⟩

/-- Ids that are fetched and not used take the counter on. -/
theorem run_issues (n : ℕ) (t : Table) (invokes : List Invoke)
    (hn : t.lInvokeCounter + n ≤ 99997) :
    ∃ others : List Invoke, others.length = n ∧
      Transition.Run Step ⟨t, invokes⟩ (List.replicate n .issue)
        ⟨{ t with lInvokeCounter := t.lInvokeCounter + n }, invokes ++ others⟩ := by
  induction n with
  | zero => exact ⟨[], rfl, by simpa using .nil⟩
  | succ n ih =>
      push_cast at hn
      obtain ⟨others, hlen, hrun⟩ := ih (by omega)
      refine ⟨others ++ [⟨t.lInvokeCounter + n + 1, .issued⟩], by simp [hlen], ?_⟩
      have hnext : ¬ 99998 ≤ t.lInvokeCounter + n + 1 := by omega
      rw [List.replicate_succ']
      refine .snoc hrun ?_
      have hstep := Step.issue
        ⟨{ t with lInvokeCounter := t.lInvokeCounter + n }, invokes ++ others⟩
      simp only [Table.getNextInvokeID, if_neg hnext] at hstep
      simpa [add_assoc] using hstep

end InvokeIds

end Esnacc
