import Esnacc.CLib.AsnListSteps
import Esnacc.Compiler.TypeGraph

/-!
Comparing two tag lists. `TagsAreIdentical` walks both lists with their own cursors: the loop moves
the one of the first list, and the body that of the second one.
-/

namespace Esnacc.Compiler

open LinkedSegment AsnList

/-- The headers of the lists, by their addresses. -/
abbrev Headers := ℕ → Option AsnList

/-- `FOR_EACH_LIST_ELMT(tag1, t1)` with its body. An element is a pointer to a tag, and the loop
stops at a null pointer. The fuel bounds the number of rounds. -/
def identicalLoop (h : Heap (Option Tag)) (t1 t2 : ℕ) : ℕ → Headers → Option (Bool × Headers)
  | 0, _ => none
  | fuel + 1, lists => do
      let l1 ← lists t1
      match l1.curr with
      | none => some (true, lists)
      | some c1 => do
          let n1 ← h c1
          match n1.data with
          | none => some (true, lists)
          | some tag1 => do
              let l2 ← lists t2
              let c2 ← l2.curr
              let n2 ← h c2
              let tag2 ← n2.data
              if tag1.tclass ≠ tag2.tclass ∨ tag1.code = tag2.code then some (false, lists)
              else do
                let lists := Function.update lists t2 (some { l2 with curr := n2.next })
                -- the step of the loop, from where the cursor stands now
                let l1 ← lists t1
                let c1 ← l1.curr
                let n1 ← h c1
                identicalLoop h t1 t2 fuel
                  (Function.update lists t1 (some { l1 with curr := n1.next }))

/-- `t == NULL || LIST_EMPTY(t)`. -/
def nullOrEmpty (lists : Headers) : Option ℕ → Option Bool
  | none => some true
  | some t => (lists t).map fun l => l.count == 0

/-- `TagsAreIdentical`. Without a result a pointer that is null is followed, or the fuel is used
up. -/
def tagsAreIdentical (fuel : ℕ) (h : Heap (Option Tag)) (lists : Headers) (t1 t2 : Option ℕ) :
    Option (Bool × Headers) := do
  let empty1 ← nullOrEmpty lists t1
  let empty2 ← nullOrEmpty lists t2
  if empty1 ∧ empty2 then some (true, lists)
  else
    match t1, t2 with
    | some t1, some t2 => do
        let l1 ← lists t1
        let l2 ← lists t2
        if l1.count = l2.count then do
          let lists := Function.update lists t2 (some { l2 with curr := l2.first })
          let l1 ← lists t1
          identicalLoop h t1 t2 fuel (Function.update lists t1 (some { l1 with curr := l1.first }))
        else some (false, lists)
    | _, _ => some (false, lists)

/-! ### Lists of tags -/

/-- The pointer is null, or leads to a list of these tags, which counts them. -/
def IsTagList (h : Heap (Option Tag)) (lists : Headers) (t : Option ℕ) (tags : List Tag) : Prop :=
  match t with
  | none => tags = []
  | some t => ∃ l c, lists t = some l ∧ Represents h l c ∧
      c.all.map Prod.snd = tags.map some ∧ l.count = c.all.length

/-- The tags have the same class, and the codes are as in `r`. -/
def Alike (r : ℤ → ℤ → Prop) (tags1 tags2 : List Tag) : Prop :=
  List.Forall₂ (fun a b => a.tclass = b.tclass ∧ r a.code b.code) tags1 tags2

section Loop

variable {h : Heap (Option Tag)} {t1 t2 : ℕ}

/-- Cells that carry tags. -/
theorem cells_cons {cells : List (ℕ × Option Tag)} {tag : Tag} {tags : List Tag}
    (hdata : cells.map Prod.snd = (tag :: tags).map some) :
    ∃ a rest, cells = (a, some tag) :: rest ∧ rest.map Prod.snd = tags.map some := by
  cases cells with
  | nil => simp at hdata
  | cons cell rest =>
      obtain ⟨a, d⟩ := cell
      simp only [List.map_cons, List.cons.injEq] at hdata
      obtain ⟨rfl, hrest⟩ := hdata
      exact ⟨a, rest, rfl, hrest⟩

theorem cells_nil {cells : List (ℕ × Option Tag)}
    (hdata : cells.map Prod.snd = ([] : List Tag).map some) : cells = [] := by
  simpa using hdata

/-- Two different lists, from the nodes on that their cursors stand on. -/
theorem identicalLoop_eq (hne : t1 ≠ t2) {tags1 tags2 : List Tag}
    (hlength : tags1.length = tags2.length) {fuel : ℕ} (hfuel : tags1.length < fuel)
    {cells1 cells2 : List (ℕ × Option Tag)} {p1 p2 : Option ℕ} {lists : Headers} {l1 l2 : AsnList}
    (hseg1 : Segment h p1 cells1 none) (hseg2 : Segment h p2 cells2 none)
    (hdata1 : cells1.map Prod.snd = tags1.map some) (hdata2 : cells2.map Prod.snd = tags2.map some)
    (hl1 : lists t1 = some l1) (hl2 : lists t2 = some l2) (hcurr1 : l1.curr = firstOf cells1)
    (hcurr2 : l2.curr = firstOf cells2) :
    ∃ b lists', identicalLoop h t1 t2 fuel lists = some (b, lists') ∧
      (b = true ↔ Alike (· ≠ ·) tags1 tags2) := by
  induction tags1 generalizing tags2 fuel cells1 cells2 p1 p2 lists l1 l2 with
  | nil =>
      obtain rfl := cells_nil hdata1
      obtain rfl := List.eq_nil_of_length_eq_zero hlength.symm
      obtain ⟨fuel, rfl⟩ := Nat.exists_eq_add_one_of_ne_zero (Nat.ne_of_gt hfuel)
      refine ⟨true, lists, ?_, iff_of_true rfl .nil⟩
      simp [identicalLoop, hl1, hcurr1]
  | cons tag1 tags1 ih =>
      obtain ⟨fuel, rfl⟩ := Nat.exists_eq_add_one_of_ne_zero
        (Nat.ne_of_gt (Nat.zero_lt_of_lt hfuel))
      cases tags2 with
      | nil => simp at hlength
      | cons tag2 tags2 =>
          obtain ⟨a1, cells1, rfl, hbehind1⟩ := cells_cons hdata1
          obtain ⟨a2, cells2, rfl, hbehind2⟩ := cells_cons hdata2
          obtain ⟨hnode1, hrest1⟩ := hseg1
          obtain ⟨hnode2, hrest2⟩ := hseg2
          rw [firstOf_cons] at hcurr1 hcurr2
          rw [Option.or_none] at hnode1 hnode2
          by_cases hdiffer : tag1.tclass ≠ tag2.tclass ∨ tag1.code = tag2.code
          · refine ⟨false, lists, ?_, iff_of_false Bool.false_ne_true fun halike => ?_⟩
            · simp [identicalLoop, hl1, hl2, hcurr1, hcurr2, hnode1, hnode2, hdiffer]
            · obtain ⟨⟨hclass, hcode⟩, -⟩ := List.forall₂_cons.mp halike
              exact hdiffer.elim (fun h => h hclass) hcode
          · rw [not_or, not_not] at hdiffer
            obtain ⟨b, lists', hloop, hb⟩ : ∃ b lists', identicalLoop h t1 t2 fuel (Function.update
                (Function.update lists t2 (some { l2 with curr := firstOf cells2 })) t1
                (some { l1 with curr := firstOf cells1 })) = some (b, lists') ∧
                (b = true ↔ Alike (· ≠ ·) tags1 tags2) :=
              ih (Nat.succ.inj hlength) (Nat.lt_of_succ_lt_succ hfuel) hrest1 hrest2 hbehind1
                hbehind2 (Function.update_self ..)
                (by rw [Function.update_of_ne hne.symm, Function.update_self]) rfl rfl
            refine ⟨b, lists', ?_, ?_⟩
            · simp [identicalLoop, hl1, hl2, hcurr1, hcurr2, hnode1, hnode2, hdiffer,
                Function.update_of_ne hne, hloop]
            · rw [hb, Alike, Alike, List.forall₂_cons]
              exact (and_iff_right ⟨hdiffer.1, hdiffer.2⟩).symm

/-- A list that is compared with itself differs at once, as the code has it. -/
theorem identicalLoop_self {fuel : ℕ} {tag : Tag} {a : ℕ} {node : Node (Option Tag)}
    {lists : Headers} {l : AsnList} (hl : lists t1 = some l) (hcurr : l.curr = some a)
    (hnode : h a = some node) (hdata : node.data = some tag) :
    identicalLoop h t1 t1 (fuel + 1) lists = some (false, lists) := by
  simp [identicalLoop, hl, hcurr, hnode, hdata]

end Loop

section Compare

variable {h : Heap (Option Tag)} {lists : Headers} {t t1 t2 : Option ℕ}
  {tags tags1 tags2 : List Tag}

theorem IsTagList.nullOrEmpty_eq (ht : IsTagList h lists t tags) :
    nullOrEmpty lists t = some tags.isEmpty := by
  cases t with
  | none =>
      obtain rfl : tags = [] := ht
      rfl
  | some t =>
      obtain ⟨l, c, hl, -, hdata, hcount⟩ := ht
      have hlength : c.all.length = tags.length := by simpa using congrArg List.length hdata
      have hzero : (l.count == 0) = tags.isEmpty := by
        rw [Bool.eq_iff_iff, beq_iff_eq, hcount, Int.natCast_eq_zero, hlength,
          List.length_eq_zero_iff, List.isEmpty_iff]
      rw [nullOrEmpty, hl, Option.map_some, hzero]

/-- The first node of a list that is not empty. -/
theorem first_tag {l : AsnList} {c : Cursor (ℕ × Option Tag)} (hrep : Represents h l c)
    (hdata : c.all.map Prod.snd = tags.map some) (hne : tags ≠ []) :
    ∃ a tag, (∃ rest, tags = tag :: rest) ∧ l.first = some a ∧
      ∃ node, h a = some node ∧ node.data = some tag := by
  obtain ⟨tag, rest, rfl⟩ := List.exists_cons_of_ne_nil hne
  obtain ⟨a, cells, hcells, -⟩ := cells_cons hdata
  have hseg := hrep.segment
  have hfirst := hrep.first
  rw [hcells] at hseg hfirst
  exact ⟨a, tag, ⟨rest, rfl⟩, hfirst, _, hseg.1, rfl⟩

/-- The loop from the first tags of two lists of the same length. A list that is given twice is
compared with one cursor. -/
theorem started_loop_eq {i j : ℕ} {l1 l2 : AsnList} {c1 c2 : Cursor (ℕ × Option Tag)}
    (hl1 : lists i = some l1) (hl2 : lists j = some l2) (hrep1 : Represents h l1 c1)
    (hrep2 : Represents h l2 c2) (hdata1 : c1.all.map Prod.snd = tags1.map some)
    (hdata2 : c2.all.map Prod.snd = tags2.map some) (hlength : tags1.length = tags2.length)
    (hne : tags1 ≠ []) {fuel : ℕ} (hfuel : tags1.length < fuel) :
    ∃ b lists', ((Function.update lists j (some { l2 with curr := l2.first }) i).bind fun l1 =>
        identicalLoop h i j fuel (Function.update
          (Function.update lists j (some { l2 with curr := l2.first })) i
          (some { l1 with curr := l1.first }))) = some (b, lists') ∧
      (b = true ↔ Alike (· ≠ ·) tags1 tags2) := by
  by_cases hij : i = j
  · subst hij
    obtain rfl := Option.some.inj (hl1.symm.trans hl2)
    obtain ⟨fuel, rfl⟩ := Nat.exists_eq_add_one_of_ne_zero (Nat.ne_of_gt (Nat.zero_lt_of_lt hfuel))
    obtain ⟨a, tag, ⟨rest, rfl⟩, hfirst, node, hnode, hdata⟩ := first_tag hrep1 hdata1 hne
    obtain ⟨a', tag', ⟨rest', rfl⟩, hfirst', node', hnode', hdata'⟩ := first_tag hrep2 hdata2
      (List.ne_nil_of_length_pos (hlength ▸ Nat.succ_pos _))
    obtain rfl := Option.some.inj (hfirst.symm.trans hfirst')
    obtain rfl := Option.some.inj (hnode.symm.trans hnode')
    obtain rfl := Option.some.inj (hdata.symm.trans hdata')
    rw [Function.update_self, Option.bind_some,
      identicalLoop_self (Function.update_self ..) hfirst hnode hdata]
    exact ⟨false, _, rfl,
      iff_of_false Bool.false_ne_true fun halike => (List.forall₂_cons.mp halike).1.2 rfl⟩
  · rw [Function.update_of_ne hij, hl1, Option.bind_some]
    exact identicalLoop_eq hij hlength hfuel hrep1.segment hrep2.segment hdata1 hdata2
      (Function.update_self ..)
      (by rw [Function.update_of_ne (Ne.symm hij), Function.update_self]) hrep1.first hrep2.first

/-- What is returned: whether both lists are empty, or have tags of the same classes, at all
positions, with codes that differ at all positions. -/
theorem tagsAreIdentical_eq (h1 : IsTagList h lists t1 tags1) (h2 : IsTagList h lists t2 tags2)
    {fuel : ℕ} (hfuel : tags1.length < fuel) :
    ∃ b lists', tagsAreIdentical fuel h lists t1 t2 = some (b, lists') ∧
      (b = true ↔ (tags1 = [] ∧ tags2 = []) ∨ (tags1 ≠ [] ∧ Alike (· ≠ ·) tags1 tags2)) := by
  by_cases hempty : tags1 = [] ∧ tags2 = []
  · refine ⟨true, lists, ?_, iff_of_true rfl (.inl hempty)⟩
    simp [tagsAreIdentical, h1.nullOrEmpty_eq, h2.nullOrEmpty_eq, hempty.1, hempty.2]
  have hnonempty : ¬ (tags1.isEmpty = true ∧ tags2.isEmpty = true) := by
    simpa [List.isEmpty_iff] using hempty
  have hfalse (hnot : ¬ (tags1 ≠ [] ∧ Alike (· ≠ ·) tags1 tags2)) :
      ¬ ((tags1 = [] ∧ tags2 = []) ∨ (tags1 ≠ [] ∧ Alike (· ≠ ·) tags1 tags2)) :=
    fun h => h.elim hempty hnot
  have hempty1 := h1.nullOrEmpty_eq
  have hempty2 := h2.nullOrEmpty_eq
  cases t1 with
  | none =>
      obtain rfl : tags1 = [] := h1
      refine ⟨false, lists, ?_, iff_of_false Bool.false_ne_true (hfalse fun h => h.1 rfl)⟩
      simp only [tagsAreIdentical, hempty1, hempty2, Option.bind_eq_bind, Option.bind_some,
        if_neg hnonempty]
  | some i =>
      cases t2 with
      | none =>
          obtain rfl : tags2 = [] := h2
          refine ⟨false, lists, ?_, iff_of_false Bool.false_ne_true (hfalse fun h => ?_)⟩
          · simp only [tagsAreIdentical, hempty1, hempty2, Option.bind_eq_bind, Option.bind_some,
              if_neg hnonempty]
          · exact h.1 (List.forall₂_nil_right_iff.mp h.2)
      | some j =>
          obtain ⟨l1, c1, hl1, hrep1, hdata1, hcount1⟩ := h1
          obtain ⟨l2, c2, hl2, hrep2, hdata2, hcount2⟩ := h2
          have hlength1 : c1.all.length = tags1.length := by
            simpa using congrArg List.length hdata1
          have hlength2 : c2.all.length = tags2.length := by
            simpa using congrArg List.length hdata2
          have hcount : l1.count = l2.count ↔ tags1.length = tags2.length := by
            rw [hcount1, hcount2, hlength1, hlength2, Nat.cast_inj]
          by_cases hlength : tags1.length = tags2.length
          · have hne : tags1 ≠ [] := fun h => hempty ⟨h, by simpa [h] using hlength.symm⟩
            obtain ⟨b, lists', hloop, hb⟩ :=
              started_loop_eq hl1 hl2 hrep1 hrep2 hdata1 hdata2 hlength hne hfuel
            refine ⟨b, lists', ?_, hb.trans ⟨fun h => .inr ⟨hne, h⟩,
              fun h => h.elim (fun h => absurd h hempty) And.right⟩⟩
            simpa only [tagsAreIdentical, hempty1, hempty2, Option.bind_eq_bind, Option.bind_some,
              if_neg hnonempty, hl1, hl2, if_pos (hcount.mpr hlength)] using hloop
          · refine ⟨false, lists, ?_, iff_of_false Bool.false_ne_true (hfalse fun h => ?_)⟩
            · simp only [tagsAreIdentical, hempty1, hempty2, Option.bind_eq_bind, Option.bind_some,
                if_neg hnonempty, hl1, hl2, if_neg (fun h => hlength (hcount.mp h))]
            · exact hlength h.2.length_eq

end Compare

/-! ### Equality of tag lists -/

/-- The same number of tags, with the same classes and codes. -/
def SameTags (tags1 tags2 : List Tag) : Prop := Alike (· = ·) tags1 tags2

/-- The two lists have tags of the same classes, with codes that agree at every position or differ
at every position. -/
def Misjudged (tags1 tags2 : List Tag) : Prop :=
  tags1 ≠ [] ∧ (Alike (· = ·) tags1 tags2 ∨ Alike (· ≠ ·) tags1 tags2)

theorem not_alike_both {tags1 tags2 : List Tag} (hne : tags1 ≠ [])
    (hsame : Alike (· = ·) tags1 tags2) (hother : Alike (· ≠ ·) tags1 tags2) : False := by
  cases hsame with
  | nil => exact hne rfl
  | cons heq _ =>
      rw [Alike, List.forall₂_cons] at hother
      exact hother.1.2 heq.2

/-- `TagsAreIdentical` returns, after as many rounds as there are tags, and what it returns is
whether the lists are the same, exactly when they are not misjudged. -/
theorem tagsAreIdentical_correct_iff (h : Heap (Option Tag)) (lists : Headers)
    (t1 t2 : Option ℕ) (tags1 tags2 : List Tag) (h1 : IsTagList h lists t1 tags1)
    (h2 : IsTagList h lists t2 tags2) :
    (∀ fuel, tags1.length < fuel → ∃ b lists',
      tagsAreIdentical fuel h lists t1 t2 = some (b, lists') ∧
        (b = true ↔ SameTags tags1 tags2)) ↔ ¬ Misjudged tags1 tags2 := by
  constructor
  · rintro hall ⟨hne, hboth⟩
    obtain ⟨b, lists', hrun, hb⟩ := hall _ (Nat.lt_succ_self _)
    obtain ⟨b', lists'', hrun', hb'⟩ := tagsAreIdentical_eq h1 h2 (Nat.lt_succ_self _)
    obtain ⟨rfl, -⟩ := Prod.mk.inj (Option.some.inj (hrun.symm.trans hrun'))
    have hiff := hb.symm.trans hb'
    rcases hboth with hsame | hother
    · rcases hiff.mp hsame with hempty | hother
      · exact hne hempty.1
      · exact not_alike_both hne hsame hother.2
    · exact not_alike_both hne (hiff.mpr (.inr ⟨hne, hother⟩)) hother
  · intro hjudged fuel hfuel
    obtain ⟨b, lists', hrun, hb⟩ := tagsAreIdentical_eq h1 h2 hfuel
    refine ⟨b, lists', hrun, hb.trans ⟨?_, fun hsame => ?_⟩⟩
    · rintro (⟨rfl, rfl⟩ | ⟨hne, hother⟩)
      · exact .nil
      · exact absurd ⟨hne, .inr hother⟩ hjudged
    · by_cases hne : tags1 = []
      · subst hne
        exact .inl ⟨rfl, List.forall₂_nil_left_iff.mp hsame⟩
      · exact absurd ⟨hne, .inl hsame⟩ hjudged

/-- Two lists in a heap, each of one tag. -/
def twoTags (tag1 tag2 : Tag) : Heap (Option Tag) × Headers :=
  (Function.update (Function.update (fun _ => none) 0 (some ⟨none, none, some tag1⟩)) 1
      (some ⟨none, none, some tag2⟩),
    Function.update (Function.update (fun _ => none) 0 (some ⟨some 0, some 0, some 0, 1⟩)) 1
      (some ⟨some 1, some 1, some 1, 1⟩))

theorem twoTags_isTagList (tag1 tag2 : Tag) :
    IsTagList (twoTags tag1 tag2).1 (twoTags tag1 tag2).2 (some 0) [tag1] ∧
      IsTagList (twoTags tag1 tag2).1 (twoTags tag1 tag2).2 (some 1) [tag2] := by
  have hcount : (1 : ℤ) = toInt32 (1 : ℕ) := (toInt32_eq (by norm_num) (by norm_num)).symm
  exact ⟨⟨_, ⟨[], [(0, some tag1)]⟩, rfl,
      ⟨⟨rfl, trivial⟩, List.nodup_singleton _, rfl, rfl, rfl, hcount⟩, rfl, rfl⟩,
    ⟨_, ⟨[], [(1, some tag2)]⟩, rfl,
      ⟨⟨rfl, trivial⟩, List.nodup_singleton _, rfl, rfl, rfl, hcount⟩, rfl, rfl⟩⟩

/-- Two lists whose tags have different classes are told apart. -/
theorem tagsAreIdentical_correct_at : ∃ b lists',
    tagsAreIdentical 2 (twoTags ⟨.univ, 2, none⟩ ⟨.cntx, 2, none⟩).1
        (twoTags ⟨.univ, 2, none⟩ ⟨.cntx, 2, none⟩).2 (some 0) (some 1) = some (b, lists') ∧
      (b = true ↔ SameTags [⟨.univ, 2, none⟩] [⟨.cntx, 2, none⟩]) := by
  obtain ⟨h1, h2⟩ := twoTags_isTagList ⟨.univ, 2, none⟩ ⟨.cntx, 2, none⟩
  refine (tagsAreIdentical_correct_iff _ _ _ _ _ _ h1 h2).mpr ?_ 2 (by decide)
  rintro ⟨-, halike | halike⟩
  · cases (List.forall₂_cons.mp halike).1.1
  · cases (List.forall₂_cons.mp halike).1.1

/-- Two lists of the same tag are told to differ, and of `[0]` and `[1]` to be the same. -/
theorem not_tagsAreIdentical : ¬ ∀ (h : Heap (Option Tag)) (lists : Headers) (t1 t2 : Option ℕ)
    (tags1 tags2 : List Tag), IsTagList h lists t1 tags1 → IsTagList h lists t2 tags2 →
      ∀ fuel, tags1.length < fuel → ∃ b lists',
        tagsAreIdentical fuel h lists t1 t2 = some (b, lists') ∧
          (b = true ↔ SameTags tags1 tags2) := by
  intro hall
  obtain ⟨h1, h2⟩ := twoTags_isTagList ⟨.cntx, 0, none⟩ ⟨.cntx, 0, none⟩
  obtain ⟨b, lists', hrun, hb⟩ := hall _ _ _ _ _ _ h1 h2 2 (by decide)
  have hsame : SameTags [⟨.cntx, 0, none⟩] [⟨.cntx, 0, none⟩] := .cons ⟨rfl, rfl⟩ .nil
  rw [hb.mpr hsame] at hrun
  cases hrun

end Esnacc.Compiler
