import Esnacc.Lib.CursorEdit
import Esnacc.Lib.LinkedSegment
import Esnacc.Lib.Transition
import Esnacc.Runtime.Word

/-!
`AsnList`, the doubly linked lists of the compiler. Every function repairs the pointers of the list
it is called for; a read or a write through a pointer that is not allocated is no result. What the
caller stores at the data address that a function returns is an argument of the model.

A list is made with `AsnListNew`. `AsnListConcat` gives the nodes of its second list to the first
one, and leaves the second list pointing to them.
-/

namespace Esnacc

open LinkedSegment

/-- The size of the data is that of a pointer. -/
structure AsnList where
  first : Option ℕ
  last : Option ℕ
  curr : Option ℕ
  count : ℤ
  deriving DecidableEq, Repr

namespace AsnList

variable {α : Type}

/-- `AsnListNew`, and `AsnListInit`. -/
def asnListNew : AsnList := ⟨none, none, none, 0⟩

/-- `count++`, on an `int`. -/
def countUp (l : AsnList) : AsnList := { l with count := toInt32 (l.count + 1) }

def countDown (l : AsnList) : AsnList := { l with count := toInt32 (l.count - 1) }

/-- `if (n) n->prev = v; else list->last = v;` -/
def setPrevOrLast (h : Heap α) (l : AsnList) (n v : Option ℕ) : Option (Heap α × AsnList) :=
  match n with
  | some n => (writePrev h n v).map fun h => (h, l)
  | none => some (h, { l with last := v })

/-- `if (p) p->next = v; else list->first = v;` -/
def setNextOrFirst (h : Heap α) (l : AsnList) (p v : Option ℕ) : Option (Heap α × AsnList) :=
  match p with
  | some p => (writeNext h p v).map fun h => (h, l)
  | none => some (h, { l with first := v })

/-- `AsnListRemove`. -/
def remove (h : Heap α) (l : AsnList) : Option (Heap α × AsnList) :=
  match l.curr with
  | none => some (h, l)
  | some node => do
      let n ← h node
      let (h, l) ← setPrevOrLast h l n.next n.prev
      let n ← h node
      let (h, l) ← setNextOrFirst h l n.prev n.next
      let n ← h node
      some (Function.update h node none, countDown { l with curr := n.next })

/-- `AsnListAdd`; `newNode` is what `Asn1Alloc` has returned. -/
def add (newNode : ℕ) (d : α) (h : Heap α) (l : AsnList) : Option (Heap α × AsnList) :=
  match l.curr with
  | none => some (h, l)
  | some curr => do
      let n ← h curr
      let h := Function.update h newNode (some ⟨some curr, n.next, d⟩)
      let (h, l) ← setPrevOrLast h l n.next (some newNode)
      let h ← writeNext h curr (some newNode)
      some (h, countUp { l with curr := some newNode })

/-- `AsnListInsert`. -/
def insert (newNode : ℕ) (d : α) (h : Heap α) (l : AsnList) : Option (Heap α × AsnList) :=
  match l.curr with
  | none => some (h, l)
  | some curr => do
      let n ← h curr
      let h := Function.update h newNode (some ⟨n.prev, some curr, d⟩)
      let (h, l) ← setNextOrFirst h l n.prev (some newNode)
      let h ← writePrev h curr (some newNode)
      some (h, countUp { l with curr := some newNode })

/-- `AsnListPrev`. The data address that is returned is that of the new current node. -/
def prev (h : Heap α) (l : AsnList) : Option (Heap α × AsnList) :=
  match l.curr with
  | none => some (h, { l with curr := l.last })
  | some curr => (h curr).map fun n => (h, { l with curr := n.prev })

/-- `AsnListNext`. -/
def next (h : Heap α) (l : AsnList) : Option (Heap α × AsnList) :=
  match l.curr with
  | none => some (h, { l with curr := l.first })
  | some curr => (h curr).map fun n => (h, { l with curr := n.next })

/-- `AsnListLast`. -/
def toLast (h : Heap α) (l : AsnList) : Option (Heap α × AsnList) :=
  some (h, { l with curr := l.last })

/-- `AsnListFirst`. -/
def toFirst (h : Heap α) (l : AsnList) : Option (Heap α × AsnList) :=
  some (h, { l with curr := l.first })

/-- `AsnListPrepend`. -/
def prepend (newNode : ℕ) (d : α) (h : Heap α) (l : AsnList) : Option (Heap α × AsnList) :=
  match l.first with
  | none =>
      some (Function.update h newNode (some ⟨none, none, d⟩),
        countUp { l with first := some newNode, last := some newNode, curr := some newNode })
  | some first => do
      let h := Function.update h newNode (some ⟨none, some first, d⟩)
      let h ← writePrev h first (some newNode)
      some (h, countUp { l with first := some newNode, curr := some newNode })

/-- `AsnListAppend`. -/
def append (newNode : ℕ) (d : α) (h : Heap α) (l : AsnList) : Option (Heap α × AsnList) :=
  match l.last with
  | none =>
      some (Function.update h newNode (some ⟨none, none, d⟩),
        countUp { l with first := some newNode, last := some newNode, curr := some newNode })
  | some last => do
      let h := Function.update h newNode (some ⟨some last, none, d⟩)
      let h ← writeNext h last (some newNode)
      some (h, countUp { l with last := some newNode, curr := some newNode })

/-- `AsnListConcat`, of two lists. -/
def concat (h : Heap α) (l1 l2 : AsnList) : Option (Heap α × AsnList) :=
  if l2.count = 0 then some (h, l1)
  else if l1.count = 0 then
    some (h, { first := l2.first, last := l2.last, curr := l2.first, count := l2.count })
  else do
    let last1 ← l1.last
    let h ← writeNext h last1 l2.first
    let first2 ← l2.first
    let h ← writePrev h first2 l1.last
    some (h, { l1 with last := l2.last, count := toInt32 (l1.count + l2.count) })

/-! ### Lists in a heap -/

/-- The functions that edit one list. -/
inductive Call (α : Type)
  | remove
  | add (d : α)
  | insert (d : α)
  | prev
  | next
  | toLast
  | toFirst
  | prepend (d : α)
  | append (d : α)
  deriving DecidableEq, Repr

def act (newNode : ℕ) : Call α → Heap α → AsnList → Option (Heap α × AsnList)
  | .remove => remove
  | .add d => add newNode d
  | .insert d => insert newNode d
  | .prev => prev
  | .next => next
  | .toLast => toLast
  | .toFirst => toFirst
  | .prepend d => prepend newNode d
  | .append d => append newNode d

/-- What is called, for the list of a number or for two. -/
inductive ListCall (α : Type)
  | new (i : ℕ)
  | edit (i : ℕ) (c : Call α)
  | concat (i j : ℕ)
  deriving DecidableEq, Repr

structure State (α : Type) where
  heap : Heap α
  lists : ℕ → Option AsnList

def State.init : State α := ⟨fun _ => none, fun _ => none⟩

/-- `Asn1Alloc` returns any address that is not allocated. -/
inductive Step : State α → ListCall α → State α → Prop
  | new {s : State α} {i : ℕ} (hnew : s.lists i = none) :
      Step s (.new i) ⟨s.heap, Function.update s.lists i (some asnListNew)⟩
  | edit {s : State α} {i : ℕ} {c : Call α} {l l' : AsnList} {h' : Heap α} (newNode : ℕ)
      (hl : s.lists i = some l) (hfree : s.heap newNode = none)
      (hact : act newNode c s.heap l = some (h', l')) :
      Step s (.edit i c) ⟨h', Function.update s.lists i (some l')⟩
  | concat {s : State α} {i j : ℕ} {l1 l2 l' : AsnList} {h' : Heap α}
      (h1 : s.lists i = some l1) (h2 : s.lists j = some l2)
      (hconcat : concat s.heap l1 l2 = some (h', l')) :
      Step s (.concat i j) ⟨h', Function.update s.lists i (some l')⟩

/-! ### Plain sequences -/

/-- What a function does to a sequence with a cursor. -/
def Call.plain {β : Type} (x : α → β) : Call α → Cursor β → Cursor β
  | .remove => Cursor.remove
  | .add d => Cursor.addAfter (x d)
  | .insert d => Cursor.insertBefore (x d)
  | .prev => Cursor.goPrev
  | .next => Cursor.goNext
  | .toLast => fun c => .back c.all
  | .toFirst => fun c => .front c.all
  | .prepend d => fun c => .front (x d :: c.all)
  | .append d => fun c => .back (c.all ++ [x d])

/-- The sequences, of the lists that have been made and not given away. -/
abbrev Plain (α : Type) := ℕ → Option (Cursor α)

def plainStep (p : Plain α) : ListCall α → Plain α
  | .new i => Function.update p i (some .empty)
  | .edit i c => Function.update p i ((p i).map (c.plain id))
  | .concat i j =>
      match p i, p j with
      | some c, some c' =>
          if c'.all = [] then p
          else Function.update (Function.update p j none) i (some (c.concat c'.all))
      | _, _ => p

/-- The sequences after the calls of a trace. -/
def plain (trace : List (ListCall α)) : Plain α := trace.foldl plainStep fun _ => none

/-- Lists that are there and have not been given away, and disjoint ones for `AsnListConcat`. -/
def Owned (p : Plain α) : ListCall α → Prop
  | .new _ => True
  | .edit i _ => (p i).isSome
  | .concat i j => i ≠ j ∧ (p i).isSome ∧ (p j).isSome

/-- No sequence has more elements than `count` can hold. -/
def Small (p : Plain α) : Prop := ∀ i c, p i = some c → c.all.length < 2 ^ 31

/-- A list is a sequence with a cursor. -/
def IsSequence (h : Heap α) (l : AsnList) (c : Cursor α) : Prop :=
  ∃ nodes : List ℕ, nodes.Nodup ∧ Follows h Node.next l.first nodes ∧
    Follows h Node.prev l.last nodes.reverse ∧ l.count = nodes.length ∧
    (l.curr = none ∨ ∃ a ∈ nodes, l.curr = some a) ∧ l.curr = nodes[c.past.length]? ∧
    nodes.map (fun a => (h a).map Node.data) = c.all.map some

end AsnList

end Esnacc
