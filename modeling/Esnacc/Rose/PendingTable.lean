import Esnacc.Lib.Transition

/-!
The table of the operations that wait for an answer, and the invoke ids under
which they stand in it. Every function here is one critical section of
`m_InternalProtectMutex`.

The objects of the table are listed in the order of their creation and are known
by their position in that list, which is what a reference to one of them is. An
object that has left the table stays in the list.
-/

namespace Esnacc

namespace PendingTable

/-- `ERoseResult`, a `long`. -/
abbrev RoseResult := ℤ

def ROSE_NOERROR : RoseResult := 0
def ROSE_TE_SHUTDOWN : RoseResult := 0x2
def ROSE_TE_TIMEOUT : RoseResult := 0x3

/-- An answer: the code that its kind stands for, and what comes of decoding it. -/
structure Message where
  lRoseResult : RoseResult
  decoded : RoseResult
  deriving DecidableEq, Repr

/-- `signaled` is the state of `m_CompletedEvent`. Of the context and of the
deadline it matters only whether they are set. -/
structure PendingOperation where
  lInvokeID : ℤ
  pAnswerMessage : Option Message
  lRoseResult : RoseResult
  signaled : Bool
  bAsyncInvoke : Bool
  bFireAndForgetAsync : Bool
  pAsyncContext : Bool
  asyncDeadline : Bool
  deriving DecidableEq, Repr

/-- `Create`. -/
def PendingOperation.create (invokeID : ℤ) : PendingOperation :=
  ⟨invokeID, none, 0, false, false, false, false, false⟩

/-- `CompleteOperation`. -/
def PendingOperation.complete (op : PendingOperation) (lRoseResult : RoseResult)
    (pAnswerMessage : Option Message) : PendingOperation :=
  { op with
    lRoseResult := lRoseResult
    pAnswerMessage := pAnswerMessage.or op.pAnswerMessage
    signaled := op.signaled || !op.bAsyncInvoke }

/-- `objects` are all operations that were created, `pending` those in the table. -/
structure Table where
  lInvokeCounter : ℤ
  objects : List PendingOperation
  pending : List ℕ
  deriving DecidableEq, Repr

namespace Table

def init : Table := ⟨0, [], []⟩

def idOf (t : Table) (u : ℕ) : Option ℤ := (t.objects[u]?).map PendingOperation.lInvokeID

/-- `m_PendingOperations.find(invokeID)`. -/
def find (t : Table) (invokeID : ℤ) : Option ℕ :=
  t.pending.find? fun u => t.idOf u = some invokeID

/-- `GetNextInvokeID`. -/
def getNextInvokeID (t : Table) : ℤ × Table :=
  let next := if 99998 ≤ t.lInvokeCounter + 1 then 1 else t.lInvokeCounter + 1
  (next, { t with lInvokeCounter := next })

/-- `AddPendingOperation`: the object under the id, which is a new one unless the
id is in the table. -/
def addPendingOperation (t : Table) (invokeID : ℤ) : ℕ × Table :=
  match t.find invokeID with
  | some u => (u, t)
  | none =>
      (t.objects.length,
        { t with
          objects := t.objects ++ [.create invokeID]
          pending := t.pending ++ [t.objects.length] })

/-- `RemovePendingOperation`. -/
def removePendingOperation (t : Table) (invokeID : ℤ) : Table :=
  { t with pending := t.pending.filter fun u => t.idOf u ≠ some invokeID }

/-- A change of one object. -/
def modify (t : Table) (u : ℕ) (f : PendingOperation → PendingOperation) : Table :=
  { t with objects := t.objects.modify u f }

@[simp] theorem idOf_modify (t : Table) (u v : ℕ) {f : PendingOperation → PendingOperation}
    (hf : ∀ op, (f op).lInvokeID = op.lInvokeID) : (t.modify u f).idOf v = t.idOf v := by
  simp only [idOf, modify, List.getElem?_modify]
  split
  · next h =>
      subst h
      cases t.objects[u]? <;> simp [hf]
  · simp

/-- Objects in the table exist, and no two of them have one id. -/
structure Good (t : Table) : Prop where
  counter : 0 ≤ t.lInvokeCounter ∧ t.lInvokeCounter ≤ 99997
  exist : ∀ u ∈ t.pending, u < t.objects.length
  unique : ∀ u ∈ t.pending, ∀ v ∈ t.pending, t.idOf u = t.idOf v → u = v

theorem good_init : init.Good := ⟨by decide, by simp [init], by simp [init]⟩

theorem find_eq_some {t : Table} (h : t.Good) {invokeID : ℤ} {u : ℕ} :
    t.find invokeID = some u ↔ u ∈ t.pending ∧ t.idOf u = some invokeID := by
  constructor
  · intro hfind
    exact ⟨List.mem_of_find?_eq_some hfind, by simpa using List.find?_some hfind⟩
  · rintro ⟨hu, hid⟩
    have hsome : (t.find invokeID).isSome := by
      rw [find, List.find?_isSome]
      exact ⟨u, hu, by simpa using hid⟩
    obtain ⟨v, hv⟩ := Option.isSome_iff_exists.mp hsome
    have hidv : t.idOf v = some invokeID := by simpa using List.find?_some hv
    rw [hv, h.unique v (List.mem_of_find?_eq_some hv) u hu (hidv.trans hid.symm)]

theorem find_eq_none {t : Table} {invokeID : ℤ} (h : t.find invokeID = none) {u : ℕ}
    (hu : u ∈ t.pending) : t.idOf u ≠ some invokeID := by
  simpa using List.find?_eq_none.mp h u hu

theorem idOf_append {t : Table} {u : ℕ} (op : PendingOperation) (hu : u < t.objects.length) :
    ({ t with objects := t.objects ++ [op] } : Table).idOf u = t.idOf u := by
  simp [idOf, List.getElem?_append_left hu]

theorem idOf_new (t : Table) (op : PendingOperation) :
    ({ t with objects := t.objects ++ [op] } : Table).idOf t.objects.length =
      some op.lInvokeID := by
  simp [idOf]

theorem addPendingOperation_of_none {t : Table} {invokeID : ℤ} (h : t.find invokeID = none) :
    t.addPendingOperation invokeID = (t.objects.length,
      { t with
        objects := t.objects ++ [.create invokeID]
        pending := t.pending ++ [t.objects.length] }) := by
  simp [addPendingOperation, h]

theorem Good.add {t : Table} (h : t.Good) {invokeID : ℤ} (hnone : t.find invokeID = none) :
    (t.addPendingOperation invokeID).2.Good := by
  rw [addPendingOperation_of_none hnone]
  have hold {u : ℕ} (hu : u ∈ t.pending) := idOf_append (t := t) (.create invokeID) (h.exist u hu)
  have hnew := idOf_new t (.create invokeID)
  refine ⟨h.counter, fun u hu => ?_, fun u hu v hv huv => ?_⟩
  · rcases List.mem_append.mp hu with hu | hu
    · simpa using (h.exist u hu).trans (Nat.lt_succ_self _)
    · simp [List.mem_singleton.mp hu]
  · rcases List.mem_append.mp hu with hu | hu <;> rcases List.mem_append.mp hv with hv | hv
    · exact h.unique u hu v hv ((hold hu).symm.trans (huv.trans (hold hv)))
    · rw [List.mem_singleton.mp hv] at huv
      exact absurd ((hold hu).symm.trans (huv.trans hnew)) (find_eq_none hnone hu)
    · rw [List.mem_singleton.mp hu] at huv
      exact absurd ((hold hv).symm.trans (huv.symm.trans hnew)) (find_eq_none hnone hv)
    · rw [List.mem_singleton.mp hu, List.mem_singleton.mp hv]

theorem mem_removePendingOperation {t : Table} {id : ℤ} {u : ℕ} :
    u ∈ (t.removePendingOperation id).pending ↔ u ∈ t.pending ∧ t.idOf u ≠ some id := by
  simp [removePendingOperation]

theorem Good.remove {t : Table} (h : t.Good) (id : ℤ) : (t.removePendingOperation id).Good :=
  ⟨h.counter, fun u hu => h.exist u (mem_removePendingOperation.mp hu).1, fun u hu v hv =>
    h.unique u (mem_removePendingOperation.mp hu).1 v (mem_removePendingOperation.mp hv).1⟩

end Table

end PendingTable

end Esnacc
