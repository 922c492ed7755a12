import Esnacc.CLib.AsnList

/-!
What each function does to a list that is a sequence with a cursor: it never reads or writes
through a pointer that is not allocated, and it leaves the sequence that the same operation on a
plain sequence gives. All nodes that are not in the list stay as they are.
-/

namespace Esnacc

namespace AsnList

open LinkedSegment

variable {α : Type}

/-- The nodes of a list with their addresses, and where the list points to them. -/
structure Represents (h : Heap α) (l : AsnList) (c : Cursor (ℕ × α)) : Prop where
  segment : Segment h none c.all none
  nodup : (addresses c.all).Nodup
  first : l.first = firstOf c.all
  last : l.last = lastOf c.all
  curr : l.curr = firstOf c.rest
  count : l.count = toInt32 c.all.length

/-- What an edit with the new node `newNode` does. -/
structure Edited (newNode : ℕ) (h : Heap α) (c : Cursor (ℕ × α)) (h' : Heap α) (l' : AsnList)
    (c' : Cursor (ℕ × α)) : Prop where
  represents : Represents h' l' c'
  frame : ∀ a, a ∉ addresses c.all → a ≠ newNode → h' a = h a
  subset : ∀ a ∈ addresses c'.all, a ∈ addresses c.all ∨ a = newNode

theorem toInt32_add_one (n : ℕ) : toInt32 (toInt32 n + 1) = toInt32 (n + 1 : ℕ) := by
  unfold toInt32
  push_cast
  exact Int.bmod_add_bmod

theorem toInt32_sub_one (n : ℕ) : toInt32 (toInt32 (n + 1 : ℕ) - 1) = toInt32 n := by
  unfold toInt32
  rw [Int.bmod_sub_bmod]
  push_cast
  rw [add_sub_cancel_right]

theorem lastOf_isSome {cells : List (ℕ × α)} (h : cells ≠ []) : (lastOf cells).isSome := by
  simpa [lastOf, addresses] using h

theorem firstOf_isSome {cells : List (ℕ × α)} (h : cells ≠ []) : (firstOf cells).isSome := by
  simpa [firstOf, addresses] using h

theorem firstOf_or {cells : List (ℕ × α)} (h : cells ≠ []) (a : Option ℕ) :
    (firstOf cells).or a = firstOf cells := Option.or_of_isSome (firstOf_isSome h)

theorem lastOf_or {cells : List (ℕ × α)} (h : cells ≠ []) (a : Option ℕ) :
    (lastOf cells).or a = lastOf cells := Option.or_of_isSome (lastOf_isSome h)

/-- A new pointer to the last node, if nothing stands behind it. -/
def withLast (l : AsnList) (post : List (ℕ × α)) (v : Option ℕ) : AsnList :=
  if post = [] then { l with last := v } else l

/-- A new pointer to the first node, if nothing stands in front of it. -/
def withFirst (l : AsnList) (pre : List (ℕ × α)) (v : Option ℕ) : AsnList :=
  if pre = [] then { l with first := v } else l

section Pointers

variable {h h' : Heap α} (l : AsnList) {cells : List (ℕ × α)} {v : Option ℕ}

theorem withLast_eq : withLast l cells v =
    { l with last := if cells = [] then v else l.last } := by
  unfold withLast
  split <;> rfl

theorem withFirst_eq : withFirst l cells v =
    { l with first := if cells = [] then v else l.first } := by
  unfold withFirst
  split <;> rfl

theorem setPrevOrLast_eq (hwrite : relinkPrev h (firstOf cells) v = some h') :
    setPrevOrLast h l (firstOf cells) v = some (h', withLast l cells v) := by
  cases cells with
  | nil =>
      cases hwrite
      rfl
  | cons cell cells =>
      have hwrite : writePrev h cell.1 v = some h' := hwrite
      simp [setPrevOrLast, firstOf, addresses, hwrite, withLast]

theorem setNextOrFirst_eq (hwrite : relinkNext h (lastOf cells) v = some h') :
    setNextOrFirst h l (lastOf cells) v = some (h', withFirst l cells v) := by
  by_cases hcells : cells = []
  · subst hcells
    cases hwrite
    rfl
  · obtain ⟨a, ha⟩ := Option.isSome_iff_exists.mp (lastOf_isSome hcells)
    rw [ha] at hwrite ⊢
    have hwrite : writeNext h a v = some h' := hwrite
    simp [setNextOrFirst, hwrite, hcells, withFirst]

end Pointers

section Edits

variable {h : Heap α} {l : AsnList} {c : Cursor (ℕ × α)}

/-- A cursor on a node. -/
theorem Represents.on {past rest : List (ℕ × α)} {a : ℕ} {d : α}
    (hrep : Represents h l ⟨past, (a, d) :: rest⟩) :
    l.curr = some a ∧ h a = some ⟨lastOf past.reverse, firstOf rest, d⟩ ∧
      Segment h none past.reverse (some a) ∧ Segment h (some a) rest none ∧
      (addresses (past.reverse ++ (a, d) :: rest)).Nodup := by
  have hseg : Segment h none (past.reverse ++ (a, d) :: rest) none := hrep.segment
  rw [segment_append] at hseg
  obtain ⟨hpre, hnode, hpost⟩ := hseg
  refine ⟨hrep.curr, ?_, hpre, hpost, hrep.nodup⟩
  simpa using hnode

theorem Represents.off {past : List (ℕ × α)} (hrep : Represents h l ⟨past, []⟩) :
    l.curr = none := hrep.curr

theorem Represents.count_eq (hrep : Represents h l c) (hsmall : c.all.length < 2 ^ 31) :
    l.count = c.all.length := by
  rw [hrep.count]
  exact toInt32_eq (by omega) (by exact_mod_cast hsmall)

theorem Represents.count_eq_zero_iff (hrep : Represents h l c)
    (hsmall : c.all.length < 2 ^ 31) : l.count = 0 ↔ c.all = [] := by
  rw [hrep.count_eq hsmall, Int.natCast_eq_zero, List.length_eq_zero_iff]

/-- A function that only moves the cursor. -/
theorem Represents.edited_of_moved (hrep : Represents h l c) (newNode : ℕ) {curr : Option ℕ}
    {c' : Cursor (ℕ × α)} (hall : c'.all = c.all) (hcurr : curr = firstOf c'.rest) :
    Edited newNode h c h { l with curr := curr } c' where
  represents :=
    { segment := hall ▸ hrep.segment
      nodup := hall ▸ hrep.nodup
      first := hall ▸ hrep.first
      last := hall ▸ hrep.last
      curr := hcurr
      count := hall ▸ hrep.count }
  frame _ _ _ := rfl
  subset _ ha := .inl (hall ▸ ha)

theorem Represents.edited_self (hrep : Represents h l c) (newNode : ℕ) :
    Edited newNode h c h l c := hrep.edited_of_moved newNode rfl hrep.curr

theorem firstOf_back (xs : List (ℕ × α)) : firstOf (Cursor.back xs).rest = lastOf xs := by
  induction xs using List.reverseRecOn with
  | nil => rfl
  | append_singleton xs x _ =>
      rw [Cursor.back, List.reverse_concat, lastOf_append]
      rfl

theorem toFirst_edited (hrep : Represents h l c) (newNode : ℕ) :
    ∃ h' l', toFirst h l = some (h', l') ∧ Edited newNode h c h' l' (.front c.all) :=
  ⟨_, _, rfl, hrep.edited_of_moved newNode rfl hrep.first⟩

theorem toLast_edited (hrep : Represents h l c) (newNode : ℕ) :
    ∃ h' l', toLast h l = some (h', l') ∧ Edited newNode h c h' l' (.back c.all) :=
  ⟨_, _, rfl, hrep.edited_of_moved newNode (Cursor.all_back _)
    (hrep.last.trans (firstOf_back _).symm)⟩

theorem next_edited (hrep : Represents h l c) (newNode : ℕ) :
    ∃ h' l', next h l = some (h', l') ∧ Edited newNode h c h' l' c.goNext := by
  obtain ⟨past, rest⟩ := c
  cases rest with
  | nil =>
      rw [next, hrep.off]
      exact ⟨_, _, rfl, hrep.edited_of_moved newNode (Cursor.all_goNext _) hrep.first⟩
  | cons cell rest =>
      obtain ⟨a, d⟩ := cell
      obtain ⟨hcurr, hnode, -⟩ := hrep.on
      simp only [next, hcurr, hnode]
      exact ⟨_, _, rfl, hrep.edited_of_moved newNode (Cursor.all_goNext _) rfl⟩

theorem prev_edited (hrep : Represents h l c) (newNode : ℕ) :
    ∃ h' l', prev h l = some (h', l') ∧ Edited newNode h c h' l' c.goPrev := by
  obtain ⟨past, rest⟩ := c
  cases rest with
  | nil =>
      rw [prev, hrep.off]
      exact ⟨_, _, rfl, hrep.edited_of_moved newNode (Cursor.all_goPrev _)
        (hrep.last.trans (firstOf_back _).symm)⟩
  | cons cell rest =>
      obtain ⟨a, d⟩ := cell
      obtain ⟨hcurr, hnode, -⟩ := hrep.on
      simp only [prev, hcurr, hnode]
      refine ⟨_, _, rfl, hrep.edited_of_moved newNode (Cursor.all_goPrev _) ?_⟩
      cases past with
      | nil => rfl
      | cons cell' past =>
          obtain ⟨b, e⟩ := cell'
          simp [Cursor.goPrev]

/-- The heap with a new node between two parts of the list. -/
structure Spliced (b : ℕ) (x : α) (h : Heap α) (pre post : List (ℕ × α)) (h' : Heap α) : Prop where
  segment : Segment h' none (pre ++ (b, x) :: post) none
  nodup : (addresses (pre ++ (b, x) :: post)).Nodup
  frame : ∀ a, a ∉ addresses (pre ++ post) → a ≠ b → h' a = h a

section Splice

variable {b : ℕ} {pre post : List (ℕ × α)}

theorem spliced_of_relinked (x : α) (hfree : b ∉ addresses (pre ++ post))
    (hnodup : (addresses (pre ++ post)).Nodup) {h' : Heap α}
    (hpre : Segment h' none pre (some b)) (hpost : Segment h' (some b) post none)
    (hframe : Relinked (Function.update h b (some ⟨lastOf pre, firstOf post, x⟩)) h'
      (pre ++ post)) : Spliced b x h pre post h' where
  segment := by
    refine segment_splice hpre ?_ hpost
    rw [hframe.frame b hfree, Function.update_self, Option.or_none, Option.or_none]
  nodup := by
    have hperm : (addresses (pre ++ (b, x) :: post)).Perm (b :: addresses (pre ++ post)) := by
      rw [addresses_append, addresses_append, addresses_cons]
      exact List.perm_middle
    exact hperm.nodup_iff.mpr (List.nodup_cons.mpr ⟨hfree, hnodup⟩)
  frame a ha hne := by rw [hframe.frame a ha, Function.update_of_ne hne]

/-- A new node is not one of the list. -/
theorem Represents.free (hrep : Represents h l c) (hfree : h b = none) : b ∉ addresses c.all :=
  fun hb => hrep.segment.allocated b hb hfree

/-- The parts of a list, with the new node made but not yet pointed to. -/
theorem Represents.parts (hrep : Represents h l c) (hall : c.all = pre ++ post)
    (hfree : h b = none) (node : Option (Node α)) :
    b ∉ addresses (pre ++ post) ∧ (addresses (pre ++ post)).Nodup ∧
      Segment (Function.update h b node) none pre (firstOf post) ∧
      Segment (Function.update h b node) (lastOf pre) post none := by
  have hb : b ∉ addresses (pre ++ post) := hall ▸ hrep.free hfree
  have hseg := hrep.segment
  rw [hall, segment_append, Option.or_none, Option.or_none] at hseg
  have hb' := hb
  rw [addresses_append, List.mem_append, not_or] at hb'
  exact ⟨hb, hall ▸ hrep.nodup, hseg.1.frame_update hb'.1 _, hseg.2.frame_update hb'.2 _⟩

theorem Represents.splice_prev_next (hrep : Represents h l c) (hall : c.all = pre ++ post)
    (hfree : h b = none) (x : α) :
    ∃ h₁ h₂, relinkPrev (Function.update h b (some ⟨lastOf pre, firstOf post, x⟩))
        (firstOf post) (some b) = some h₁ ∧
      relinkNext h₁ (lastOf pre) (some b) = some h₂ ∧ Spliced b x h pre post h₂ := by
  obtain ⟨hb, hnodup, hpre, hpost⟩ :=
    hrep.parts hall hfree (some ⟨lastOf pre, firstOf post, x⟩)
  obtain ⟨h₁, h₂, hwrite₁, hwrite₂, hpre₂, hpost₂, -, hframe⟩ :=
    hpre.relink_prev_next hpost hnodup (some b) (some b)
  exact ⟨h₁, h₂, hwrite₁, hwrite₂, spliced_of_relinked x hb hnodup hpre₂ hpost₂ hframe⟩

theorem Represents.splice_next_prev (hrep : Represents h l c) (hall : c.all = pre ++ post)
    (hfree : h b = none) (x : α) :
    ∃ h₁ h₂, relinkNext (Function.update h b (some ⟨lastOf pre, firstOf post, x⟩))
        (lastOf pre) (some b) = some h₁ ∧
      relinkPrev h₁ (firstOf post) (some b) = some h₂ ∧ Spliced b x h pre post h₂ := by
  obtain ⟨hb, hnodup, hpre, hpost⟩ :=
    hrep.parts hall hfree (some ⟨lastOf pre, firstOf post, x⟩)
  obtain ⟨h₁, h₂, hwrite₁, hwrite₂, hpre₂, hpost₂, hframe⟩ :=
    hpre.relink_next_prev hpost hnodup (some b) (some b)
  exact ⟨h₁, h₂, hwrite₁, hwrite₂, spliced_of_relinked x hb hnodup hpre₂ hpost₂ hframe⟩

/-- The list points to the new heap as it should. -/
theorem Spliced.edited {x : α} {h' : Heap α} (hs : Spliced b x h pre post h')
    (hrep : Represents h l c) (hall : c.all = pre ++ post) {l' : AsnList} {c' : Cursor (ℕ × α)}
    (hall' : c'.all = pre ++ (b, x) :: post) (hrest : firstOf c'.rest = some b)
    (hfirst : l'.first = (firstOf pre).or (some b)) (hlast : l'.last = (lastOf post).or (some b))
    (hcurr : l'.curr = some b) (hcount : l'.count = toInt32 (l.count + 1)) :
    Edited b h c h' l' c' where
  represents :=
    { segment := hall' ▸ hs.segment
      nodup := hall' ▸ hs.nodup
      first := by simp [hall', hfirst]
      last := by
        rw [hall', hlast, lastOf_append, lastOf_cons]
        cases lastOf post <;> rfl
      curr := hcurr.trans hrest.symm
      count := by
        rw [hcount, hrep.count, toInt32_add_one, hall, hall', List.length_append,
          List.length_append, List.length_cons, Nat.add_assoc] }
  frame a ha hne := hs.frame a (hall ▸ ha) hne
  subset a ha := by
    rw [hall', addresses_append, addresses_cons, List.mem_append, List.mem_cons] at ha
    rw [hall, addresses_append, List.mem_append]
    tauto

end Splice

theorem add_edited (hrep : Represents h l c) {newNode : ℕ} (hfree : h newNode = none) (d : α) :
    ∃ h' l', add newNode d h l = some (h', l') ∧
      Edited newNode h c h' l' (c.addAfter (newNode, d)) := by
  obtain ⟨past, rest⟩ := c
  cases rest with
  | nil =>
      rw [add, hrep.off]
      exact ⟨_, _, rfl, hrep.edited_self newNode⟩
  | cons cell rest =>
      obtain ⟨a, e⟩ := cell
      obtain ⟨hcurr, hnode, -⟩ := hrep.on
      have hlast : lastOf (past.reverse ++ [(a, e)]) = some a := by simp
      have hall : (⟨past, (a, e) :: rest⟩ : Cursor (ℕ × α)).all =
          (past.reverse ++ [(a, e)]) ++ rest := by simp [Cursor.all]
      obtain ⟨h₁, h₂, hwrite₁, hwrite₂, hs⟩ := hrep.splice_prev_next hall hfree d
      rw [hlast] at hwrite₁ hwrite₂
      have hnext : writeNext h₁ a (some newNode) = some h₂ := hwrite₂
      refine ⟨h₂, countUp { withLast l rest (some newNode) with curr := some newNode }, ?_, ?_⟩
      · simp [add, hcurr, hnode, setPrevOrLast_eq l hwrite₁, hnext]
      rw [withLast_eq]
      refine hs.edited hrep hall (by simp [Cursor.addAfter, Cursor.all]) rfl ?_ ?_ rfl rfl
      · have hfirst := hrep.first
        rw [hall, firstOf_append, firstOf_or (by simp)] at hfirst
        rw [firstOf_or (by simp)]
        exact hfirst
      · have hlast := hrep.last
        rw [hall, lastOf_append] at hlast
        by_cases hrest : rest = []
        · simp [countUp, hrest]
        · rw [lastOf_or hrest] at hlast ⊢
          simp [countUp, hrest, hlast]

theorem insert_edited (hrep : Represents h l c) {newNode : ℕ} (hfree : h newNode = none) (d : α) :
    ∃ h' l', insert newNode d h l = some (h', l') ∧
      Edited newNode h c h' l' (c.insertBefore (newNode, d)) := by
  obtain ⟨past, rest⟩ := c
  cases rest with
  | nil =>
      rw [insert, hrep.off]
      exact ⟨_, _, rfl, hrep.edited_self newNode⟩
  | cons cell rest =>
      obtain ⟨a, e⟩ := cell
      obtain ⟨hcurr, hnode, -⟩ := hrep.on
      have hall : (⟨past, (a, e) :: rest⟩ : Cursor (ℕ × α)).all =
          past.reverse ++ (a, e) :: rest := rfl
      obtain ⟨h₁, h₂, hwrite₁, hwrite₂, hs⟩ := hrep.splice_next_prev hall hfree d
      rw [firstOf_cons] at hwrite₁ hwrite₂
      have hprev : writePrev h₁ a (some newNode) = some h₂ := hwrite₂
      refine ⟨h₂, countUp { withFirst l past.reverse (some newNode) with curr := some newNode },
        ?_, ?_⟩
      · simp [insert, hcurr, hnode, setNextOrFirst_eq l hwrite₁, hprev]
      rw [withFirst_eq]
      refine hs.edited hrep hall rfl rfl ?_ ?_ rfl rfl
      · have hfirst := hrep.first
        rw [hall, firstOf_append] at hfirst
        by_cases hpast : past = []
        · simp [countUp, hpast]
        · have hpre : past.reverse ≠ [] := by simpa using hpast
          rw [firstOf_or hpre] at hfirst ⊢
          simp [countUp, hpast, hfirst]
      · have hlast := hrep.last
        rw [hall, lastOf_append] at hlast
        simp [countUp, hlast]

theorem prepend_edited (hrep : Represents h l c) {newNode : ℕ} (hfree : h newNode = none)
    (d : α) : ∃ h' l', prepend newNode d h l = some (h', l') ∧
      Edited newNode h c h' l' (.front ((newNode, d) :: c.all)) := by
  have hall : c.all = [] ++ c.all := rfl
  obtain ⟨h₁, h₂, hwrite₁, hwrite₂, hs⟩ := hrep.splice_prev_next hall hfree d
  cases hwrite₂
  by_cases hempty : c.all = []
  · rw [hempty] at hwrite₁
    cases hwrite₁
    have hfirst : l.first = none := by rw [hrep.first, hempty, firstOf_nil]
    have hact : prepend newNode d h l = some (Function.update h newNode (some ⟨none, none, d⟩),
        countUp { l with first := some newNode, last := some newNode, curr := some newNode }) := by
      rw [prepend, hfirst]
    rw [hempty] at hs
    refine ⟨_, _, hact, hs.edited hrep (by simp [hempty]) ?_ rfl rfl rfl rfl rfl⟩
    rw [hempty]
    rfl
  · obtain ⟨a, ha⟩ := Option.isSome_iff_exists.mp (firstOf_isSome hempty)
    have hfirst : l.first = some a := hrep.first.trans ha
    rw [ha] at hwrite₁
    have hprev : writePrev (Function.update h newNode (some ⟨none, some a, d⟩)) a
      (some newNode) = some h₁ := hwrite₁
    refine ⟨h₁, countUp { l with first := some newNode, curr := some newNode }, ?_, ?_⟩
    · simp [prepend, hfirst, hprev]
    · refine hs.edited hrep hall rfl rfl rfl ?_ rfl rfl
      rw [lastOf_or hempty]
      exact hrep.last

theorem append_edited (hrep : Represents h l c) {newNode : ℕ} (hfree : h newNode = none)
    (d : α) : ∃ h' l', append newNode d h l = some (h', l') ∧
      Edited newNode h c h' l' (.back (c.all ++ [(newNode, d)])) := by
  have hall : c.all = c.all ++ [] := (List.append_nil _).symm
  have hrest : firstOf (Cursor.back (c.all ++ [(newNode, d)])).rest = some newNode := by
    rw [firstOf_back, lastOf_append]
    rfl
  obtain ⟨h₁, h₂, hwrite₁, hwrite₂, hs⟩ := hrep.splice_next_prev hall hfree d
  cases hwrite₂
  by_cases hempty : c.all = []
  · rw [hempty] at hwrite₁
    cases hwrite₁
    have hlast : l.last = none := by rw [hrep.last, hempty, lastOf_nil]
    have hact : append newNode d h l = some (Function.update h newNode (some ⟨none, none, d⟩),
        countUp { l with first := some newNode, last := some newNode, curr := some newNode }) := by
      rw [append, hlast]
    refine ⟨_, _, hact, hs.edited hrep hall (Cursor.all_back _) hrest ?_ rfl rfl rfl⟩
    rw [hempty]
    rfl
  · obtain ⟨a, ha⟩ := Option.isSome_iff_exists.mp (lastOf_isSome hempty)
    have hlast : l.last = some a := hrep.last.trans ha
    rw [ha] at hwrite₁
    have hnext : writeNext (Function.update h newNode (some ⟨some a, none, d⟩)) a
      (some newNode) = some h₁ := hwrite₁
    refine ⟨h₁, countUp { l with last := some newNode, curr := some newNode }, ?_, ?_⟩
    · simp [append, hlast, hnext]
    · refine hs.edited hrep hall (Cursor.all_back _) hrest ?_ rfl rfl rfl
      rw [firstOf_or hempty]
      exact hrep.first

theorem remove_edited (hrep : Represents h l c) (newNode : ℕ) :
    ∃ h' l', remove h l = some (h', l') ∧ Edited newNode h c h' l' c.remove := by
  obtain ⟨past, rest⟩ := c
  cases rest with
  | nil =>
      rw [remove, hrep.off]
      exact ⟨_, _, rfl, hrep.edited_self newNode⟩
  | cons cell rest =>
      obtain ⟨a, e⟩ := cell
      obtain ⟨hcurr, hnode, hpre, hpost, hnodup⟩ := hrep.on
      have hperm : (addresses (past.reverse ++ (a, e) :: rest)).Perm
          (a :: addresses (past.reverse ++ rest)) := by
        rw [addresses_append, addresses_append, addresses_cons]
        exact List.perm_middle
      obtain ⟨ha, hnodup'⟩ := List.nodup_cons.mp (hperm.nodup_iff.mp hnodup)
      obtain ⟨h₁, h₂, hwrite₁, hwrite₂, hpre₂, hpost₂, hframe₁, hframe₂⟩ :=
        hpre.relink_prev_next hpost hnodup' (lastOf past.reverse) (firstOf rest)
      have hnode₁ := (hframe₁.frame a ha).trans hnode
      have hnode₂ := (hframe₂.frame a ha).trans hnode
      have ha' := ha
      rw [addresses_append, List.mem_append, not_or] at ha'
      have hall : (Cursor.remove ⟨past, (a, e) :: rest⟩).all = past.reverse ++ rest := rfl
      refine ⟨Function.update h₂ a none, countDown { withFirst (withLast l rest
        (lastOf past.reverse)) past.reverse (firstOf rest) with curr := firstOf rest }, ?_, ?_⟩
      · simp [remove, hcurr, hnode, setPrevOrLast_eq l hwrite₁, hnode₁,
          setNextOrFirst_eq _ hwrite₂, hnode₂]
      rw [withLast_eq, withFirst_eq]
      refine ⟨⟨?_, hall ▸ hnodup', ?_, ?_, rfl, ?_⟩, fun b hb _ => ?_, fun b hb => .inl ?_⟩
      · rw [hall, segment_append, Option.or_none, Option.or_none]
        exact ⟨hpre₂.frame_update ha'.1 _, hpost₂.frame_update ha'.2 _⟩
      · have hfirst : l.first = firstOf (past.reverse ++ (a, e) :: rest) := hrep.first
        rw [firstOf_append] at hfirst
        rw [hall, firstOf_append]
        by_cases hpre : past.reverse = []
        · simp [countDown, hpre]
        · rw [firstOf_or hpre] at hfirst ⊢
          simp [countDown, hfirst, List.reverse_eq_nil_iff.not.mp hpre]
      · have hlast : l.last = lastOf (past.reverse ++ (a, e) :: rest) := hrep.last
        rw [lastOf_append, lastOf_cons] at hlast
        rw [hall, lastOf_append]
        by_cases hpost : rest = []
        · simp [countDown, hpost]
        · rw [lastOf_or hpost, lastOf_or hpost] at hlast
          rw [lastOf_or hpost]
          simp [countDown, hlast, hpost]
      · have hcount : l.count = toInt32 (past.reverse ++ (a, e) :: rest).length := hrep.count
        rw [List.length_append, List.length_cons, ← Nat.add_assoc, ← List.length_append] at hcount
        change toInt32 (l.count - 1) = _
        rw [hcount, toInt32_sub_one]
        rfl
      · have hb : b ∉ addresses (past.reverse ++ (a, e) :: rest) := hb
        rw [hperm.mem_iff, List.mem_cons, not_or] at hb
        rw [Function.update_of_ne hb.1, hframe₂.frame b hb.2]
      · have hb : b ∈ addresses (past.reverse ++ rest) := hb
        exact hperm.mem_iff.mpr (List.mem_cons_of_mem _ hb)

end Edits

end AsnList

end Esnacc
