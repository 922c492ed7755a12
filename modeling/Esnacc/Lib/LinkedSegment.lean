import Mathlib

/-!
Doubly linked nodes in a heap. A segment is a stretch of nodes that stand one
behind the other; what stands in front of it and behind it is given, so that
segments can be taken apart and put together. A node that is written to is the
last or the first of a segment, and all other segments stay as they are.
-/

namespace LinkedSegment

structure Node (α : Type) where
  prev : Option ℕ
  next : Option ℕ
  data : α
  deriving DecidableEq, Repr

/-- An address without a node is not allocated. -/
abbrev Heap (α : Type) := ℕ → Option (Node α)

variable {α : Type}

/-- `a->next = v`, if `a` is allocated. -/
def writeNext (h : Heap α) (a : ℕ) (v : Option ℕ) : Option (Heap α) :=
  (h a).map fun node => Function.update h a (some { node with next := v })

/-- `a->prev = v`, if `a` is allocated. -/
def writePrev (h : Heap α) (a : ℕ) (v : Option ℕ) : Option (Heap α) :=
  (h a).map fun node => Function.update h a (some { node with prev := v })

def addresses (cells : List (ℕ × α)) : List ℕ := cells.map Prod.fst

def firstOf (cells : List (ℕ × α)) : Option ℕ := (addresses cells).head?

def lastOf (cells : List (ℕ × α)) : Option ℕ := (addresses cells).getLast?

section Ends

variable (a : ℕ) (d : α) (cells cells' : List (ℕ × α))

@[simp] theorem addresses_nil : addresses ([] : List (ℕ × α)) = [] := rfl

@[simp] theorem addresses_cons : addresses ((a, d) :: cells) = a :: addresses cells := rfl

@[simp] theorem addresses_append :
    addresses (cells ++ cells') = addresses cells ++ addresses cells' := List.map_append

@[simp] theorem length_addresses : (addresses cells).length = cells.length := List.length_map _

@[simp] theorem firstOf_nil : firstOf ([] : List (ℕ × α)) = none := rfl

@[simp] theorem firstOf_cons : firstOf ((a, d) :: cells) = some a := rfl

@[simp] theorem firstOf_append : firstOf (cells ++ cells') = (firstOf cells).or (firstOf cells') := by
  simp [firstOf, List.head?_append]

@[simp] theorem lastOf_nil : lastOf ([] : List (ℕ × α)) = none := rfl

@[simp] theorem lastOf_append : lastOf (cells ++ cells') = (lastOf cells').or (lastOf cells) := by
  simp [lastOf, List.getLast?_append]

@[simp] theorem lastOf_cons : lastOf ((a, d) :: cells) = (lastOf cells).or (some a) := by
  rw [← List.singleton_append, lastOf_append]
  rfl

end Ends

/-- The cells are nodes of the heap, from one that follows `p` to one before `q`. -/
def Segment (h : Heap α) : Option ℕ → List (ℕ × α) → Option ℕ → Prop
  | _, [], _ => True
  | p, (a, d) :: cells, q =>
      h a = some ⟨p, (firstOf cells).or q, d⟩ ∧ Segment h (some a) cells q

theorem segment_append (h : Heap α) (p q : Option ℕ) (cells cells' : List (ℕ × α)) :
    Segment h p (cells ++ cells') q ↔
      Segment h p cells ((firstOf cells').or q) ∧ Segment h ((lastOf cells).or p) cells' q := by
  induction cells generalizing p with
  | nil => simp [Segment]
  | cons cell cells ih =>
      obtain ⟨a, d⟩ := cell
      simp [Segment, ih, and_assoc, Option.or_assoc]

/-- Whatever is written elsewhere leaves a segment as it is. -/
theorem Segment.frame {h h' : Heap α} {p q : Option ℕ} {cells : List (ℕ × α)}
    (hseg : Segment h p cells q) (heq : ∀ a ∈ addresses cells, h' a = h a) :
    Segment h' p cells q := by
  induction cells generalizing p with
  | nil => trivial
  | cons cell cells ih =>
      obtain ⟨a, d⟩ := cell
      rw [addresses_cons, List.forall_mem_cons] at heq
      exact ⟨heq.1.trans hseg.1, ih hseg.2 heq.2⟩

theorem Segment.frame_update {h : Heap α} {p q : Option ℕ} {cells : List (ℕ × α)}
    (hseg : Segment h p cells q) {b : ℕ} (hb : b ∉ addresses cells) (node : Option (Node α)) :
    Segment (Function.update h b node) p cells q :=
  hseg.frame fun a ha => Function.update_of_ne (fun hab => hb (by rwa [← hab])) _ _

theorem Segment.allocated {h : Heap α} {p q : Option ℕ} {cells : List (ℕ × α)}
    (hseg : Segment h p cells q) : ∀ a ∈ addresses cells, h a ≠ none := by
  induction cells generalizing p with
  | nil => simp
  | cons cell cells ih =>
      obtain ⟨a, d⟩ := cell
      rw [addresses_cons, List.forall_mem_cons]
      exact ⟨by simp [hseg.1], ih hseg.2⟩

/-- Behind a segment, if there is one in front: what the last node points to is written. -/
def relinkNext (h : Heap α) (last v : Option ℕ) : Option (Heap α) :=
  match last with
  | some a => writeNext h a v
  | none => some h

/-- In front of a segment: what the first node points back to is written. -/
def relinkPrev (h : Heap α) (first v : Option ℕ) : Option (Heap α) :=
  match first with
  | some a => writePrev h a v
  | none => some h

/-- What becomes of a heap when nodes of a segment are written to. -/
structure Relinked (h h' : Heap α) (cells : List (ℕ × α)) : Prop where
  frame : ∀ a, a ∉ addresses cells → h' a = h a
  allocated : ∀ a, h a = none → h' a = none

theorem Relinked.update {h : Heap α} {cells : List (ℕ × α)} {a : ℕ} (ha : a ∈ addresses cells)
    (hsome : h a ≠ none) (node : Node α) :
    Relinked h (Function.update h a (some node)) cells where
  frame b hb := Function.update_of_ne (fun hba => hb (by rwa [hba])) _ _
  allocated b hb := by
    rw [Function.update_of_ne (fun hba => hsome (by rw [← hba]; exact hb)), hb]

theorem Relinked.mono {h h' : Heap α} {cells cells' : List (ℕ × α)} (hr : Relinked h h' cells)
    (hsubset : addresses cells ⊆ addresses cells') : Relinked h h' cells' where
  frame a ha := hr.frame a fun ha' => ha (hsubset ha')
  allocated := hr.allocated

theorem Relinked.trans {h h' h'' : Heap α} {cells : List (ℕ × α)} (hr : Relinked h h' cells)
    (hr' : Relinked h' h'' cells) : Relinked h h'' cells where
  frame a ha := (hr'.frame a ha).trans (hr.frame a ha)
  allocated a ha := hr'.allocated a (hr.allocated a ha)

theorem Segment.relinkPrev {h : Heap α} {p q : Option ℕ} {cells : List (ℕ × α)}
    (hseg : Segment h p cells q) (hnodup : (addresses cells).Nodup) (v : Option ℕ) :
    ∃ h', LinkedSegment.relinkPrev h (firstOf cells) v = some h' ∧ Segment h' v cells q ∧
      Relinked h h' cells := by
  cases cells with
  | nil => exact ⟨h, rfl, trivial, fun _ _ => rfl, fun _ ha => ha⟩
  | cons cell cells =>
      obtain ⟨a, d⟩ := cell
      obtain ⟨hnode, hrest⟩ := hseg
      rw [addresses_cons, List.nodup_cons] at hnodup
      have hwrite : writePrev h a v =
          some (Function.update h a (some ⟨v, (firstOf cells).or q, d⟩)) := by
        rw [writePrev, hnode]
        rfl
      refine ⟨_, hwrite, ⟨Function.update_self .., hrest.frame_update hnodup.1 _⟩, ?_⟩
      exact .update List.mem_cons_self (by simp [hnode]) _

theorem Segment.relinkNext {h : Heap α} {p q : Option ℕ} {cells : List (ℕ × α)}
    (hseg : Segment h p cells q) (hnodup : (addresses cells).Nodup) (v : Option ℕ) :
    ∃ h', LinkedSegment.relinkNext h (lastOf cells) v = some h' ∧ Segment h' p cells v ∧
      Relinked h h' cells := by
  induction cells using List.reverseRecOn with
  | nil => exact ⟨h, rfl, trivial, fun _ _ => rfl, fun _ ha => ha⟩
  | append_singleton cells cell _ =>
      obtain ⟨a, d⟩ := cell
      rw [segment_append] at hseg
      obtain ⟨hfront, hnode, -⟩ := hseg
      rw [addresses_append, List.nodup_append] at hnodup
      have hnotMem : a ∉ addresses cells := fun ha =>
        hnodup.2.2 a ha a List.mem_cons_self rfl
      have hwrite : writeNext h a v =
          some (Function.update h a (some ⟨(lastOf cells).or p, v, d⟩)) := by
        rw [writeNext, hnode]
        rfl
      refine ⟨_, ?_, (segment_append ..).mpr ⟨hfront.frame_update hnotMem _,
        Function.update_self .., trivial⟩, ?_⟩
      · rw [lastOf_append]
        exact hwrite
      · exact .update (by simp) (by simp [hnode]) _

section Both

variable {h : Heap α} {p q p' q' : Option ℕ} {pre post : List (ℕ × α)}

/-- Two segments are written to where they meet, the second one first. -/
theorem Segment.relink_prev_next (hpre : Segment h p pre q) (hpost : Segment h p' post q')
    (hnodup : (addresses (pre ++ post)).Nodup) (v w : Option ℕ) :
    ∃ h₁ h₂, LinkedSegment.relinkPrev h (firstOf post) v = some h₁ ∧
      LinkedSegment.relinkNext h₁ (lastOf pre) w = some h₂ ∧
      Segment h₂ p pre w ∧ Segment h₂ v post q' ∧
      Relinked h h₁ (pre ++ post) ∧ Relinked h h₂ (pre ++ post) := by
  rw [addresses_append, List.nodup_append] at hnodup
  obtain ⟨hnodup₁, hnodup₂, hdisjoint⟩ := hnodup
  obtain ⟨h₁, hwrite₁, hpost₁, hframe₁⟩ := hpost.relinkPrev hnodup₂ v
  have hpre₁ := hpre.frame fun a ha =>
    hframe₁.frame a fun ha' => hdisjoint a ha a ha' rfl
  obtain ⟨h₂, hwrite₂, hpre₂, hframe₂⟩ := hpre₁.relinkNext hnodup₁ w
  have hpost₂ := hpost₁.frame fun a ha =>
    hframe₂.frame a fun ha' => hdisjoint a ha' a ha rfl
  have hboth₁ : Relinked h h₁ (pre ++ post) := hframe₁.mono (by simp)
  exact ⟨h₁, h₂, hwrite₁, hwrite₂, hpre₂, hpost₂, hboth₁, hboth₁.trans (hframe₂.mono (by simp))⟩

/-- The first one first. -/
theorem Segment.relink_next_prev (hpre : Segment h p pre q) (hpost : Segment h p' post q')
    (hnodup : (addresses (pre ++ post)).Nodup) (v w : Option ℕ) :
    ∃ h₁ h₂, LinkedSegment.relinkNext h (lastOf pre) w = some h₁ ∧
      LinkedSegment.relinkPrev h₁ (firstOf post) v = some h₂ ∧
      Segment h₂ p pre w ∧ Segment h₂ v post q' ∧ Relinked h h₂ (pre ++ post) := by
  rw [addresses_append, List.nodup_append] at hnodup
  obtain ⟨hnodup₁, hnodup₂, hdisjoint⟩ := hnodup
  obtain ⟨h₁, hwrite₁, hpre₁, hframe₁⟩ := hpre.relinkNext hnodup₁ w
  have hpost₁ := hpost.frame fun a ha =>
    hframe₁.frame a fun ha' => hdisjoint a ha' a ha rfl
  obtain ⟨h₂, hwrite₂, hpost₂, hframe₂⟩ := hpost₁.relinkPrev hnodup₂ v
  have hpre₂ := hpre₁.frame fun a ha =>
    hframe₂.frame a fun ha' => hdisjoint a ha a ha' rfl
  have hboth₁ : Relinked h h₁ (pre ++ post) := hframe₁.mono (by simp)
  exact ⟨h₁, h₂, hwrite₁, hwrite₂, hpre₂, hpost₂, hboth₁.trans (hframe₂.mono (by simp))⟩

variable {b : ℕ} {x : α}

/-- A node between two segments that point to it. -/
theorem segment_splice (hpre : Segment h p pre (some b))
    (hnode : h b = some ⟨(lastOf pre).or p, (firstOf post).or q, x⟩)
    (hpost : Segment h (some b) post q) : Segment h p (pre ++ (b, x) :: post) q :=
  (segment_append ..).mpr ⟨hpre, hnode, hpost⟩

end Both

/-- From the address `p` on, the pointers lead through the addresses and end. -/
inductive Follows (h : Heap α) (pointer : Node α → Option ℕ) : Option ℕ → List ℕ → Prop
  | stop : Follows h pointer none []
  | step {a : ℕ} {node : Node α} {as : List ℕ} :
      h a = some node → Follows h pointer (pointer node) as → Follows h pointer (some a) (a :: as)

theorem Segment.follows_next {h : Heap α} {p : Option ℕ} {cells : List (ℕ × α)}
    (hseg : Segment h p cells none) : Follows h Node.next (firstOf cells) (addresses cells) := by
  induction cells generalizing p with
  | nil => exact .stop
  | cons cell cells ih =>
      obtain ⟨a, d⟩ := cell
      refine .step hseg.1 ?_
      rw [Option.or_none]
      exact ih hseg.2

theorem Segment.follows_prev {h : Heap α} {q : Option ℕ} {cells : List (ℕ × α)}
    (hseg : Segment h none cells q) :
    Follows h Node.prev (lastOf cells) (addresses cells).reverse := by
  induction cells using List.reverseRecOn generalizing q with
  | nil => exact .stop
  | append_singleton cells cell ih =>
      obtain ⟨a, d⟩ := cell
      rw [segment_append] at hseg
      obtain ⟨hfront, hnode, -⟩ := hseg
      rw [addresses_append, List.reverse_append, lastOf_append]
      refine .step hnode ?_
      rw [Option.or_none]
      exact ih hfront

theorem Segment.data {h : Heap α} {p q : Option ℕ} {cells : List (ℕ × α)}
    (hseg : Segment h p cells q) :
    (addresses cells).map (fun a => (h a).map Node.data) = cells.map fun cell => some cell.2 := by
  induction cells generalizing p with
  | nil => rfl
  | cons cell cells ih =>
      obtain ⟨a, d⟩ := cell
      rw [addresses_cons, List.map_cons, List.map_cons, ih hseg.2, hseg.1]
      rfl

/-- What the pointers lead through is determined by the heap. -/
theorem Follows.unique {h : Heap α} {pointer : Node α → Option ℕ} {p : Option ℕ}
    {as bs : List ℕ} (ha : Follows h pointer p as) (hb : Follows h pointer p bs) : as = bs := by
  induction ha generalizing bs with
  | stop =>
      cases hb
      rfl
  | step hnode _ ih =>
      cases hb with
      | step hnode' hrest =>
          obtain rfl := Option.some.inj (hnode.symm.trans hnode')
          rw [ih hrest]

end LinkedSegment
