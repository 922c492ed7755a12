import Esnacc.CLib.AsnListSteps

/-!
Runs of the list functions. The lists that are in use never share a node, and each of them is the
sequence with a cursor that the same calls give on plain sequences, as long as the counter of nodes
does not overflow and a list that has been given away is left alone.
-/

namespace Esnacc

namespace AsnList

open LinkedSegment

variable {α : Type}

theorem act_edited {h : Heap α} {l : AsnList} {c : Cursor (ℕ × α)} (hrep : Represents h l c)
    {newNode : ℕ} (hfree : h newNode = none) (call : Call α) :
    ∃ h' l', act newNode call h l = some (h', l') ∧
      Edited newNode h c h' l' (call.plain (fun d => (newNode, d)) c) := by
  cases call with
  | remove => exact remove_edited hrep newNode
  | add d => exact add_edited hrep hfree d
  | insert d => exact insert_edited hrep hfree d
  | prev => exact prev_edited hrep newNode
  | next => exact next_edited hrep newNode
  | toLast => exact toLast_edited hrep newNode
  | toFirst => exact toFirst_edited hrep newNode
  | prepend d => exact prepend_edited hrep hfree d
  | append d => exact append_edited hrep hfree d

theorem map_plain (call : Call α) (newNode : ℕ) (c : Cursor (ℕ × α)) :
    (call.plain (fun d => (newNode, d)) c).map Prod.snd =
      call.plain id (c.map Prod.snd) := by
  cases call <;> simp [Call.plain]

theorem Represents.frame {h h' : Heap α} {l : AsnList} {c : Cursor (ℕ × α)}
    (hrep : Represents h l c) (heq : ∀ a ∈ addresses c.all, h' a = h a) : Represents h' l c :=
  { hrep with segment := hrep.segment.frame heq }

/-- What a list that is made represents. -/
theorem represents_new (h : Heap α) : Represents h asnListNew (.empty : Cursor (ℕ × α)) where
  segment := trivial
  nodup := List.nodup_nil
  first := rfl
  last := rfl
  curr := rfl
  count := (toInt32_eq (z := 0) (by norm_num) (by norm_num)).symm

section Concat

variable {h : Heap α} {l1 l2 : AsnList} {c1 c2 : Cursor (ℕ × α)}

theorem firstOf_rest_concat {c : Cursor (ℕ × α)} {ys : List (ℕ × α)} (hys : ys ≠ [])
    (hall : c.all ≠ []) : firstOf (c.concat ys).rest = firstOf c.rest := by
  rw [Cursor.concat, if_neg hys, if_neg hall]
  split
  · next hrest => rw [hrest]; rfl
  · next hrest => rw [firstOf_append, firstOf_or hrest]

theorem concat_represents (h1 : Represents h l1 c1) (h2 : Represents h l2 c2)
    (hdisjoint : ∀ a ∈ addresses c1.all, a ∉ addresses c2.all)
    (hsmall1 : c1.all.length < 2 ^ 31) (hsmall2 : c2.all.length < 2 ^ 31) :
    ∃ h' l', concat h l1 l2 = some (h', l') ∧ Represents h' l' (c1.concat c2.all) ∧
      Relinked h h' (c1.all ++ c2.all) ∧ (c2.all = [] → h' = h) := by
  have hzero1 := h1.count_eq_zero_iff hsmall1
  have hzero2 := h2.count_eq_zero_iff hsmall2
  by_cases hempty2 : c2.all = []
  · refine ⟨h, l1, by rw [concat, if_pos (hzero2.mpr hempty2)], ?_,
      ⟨fun _ _ => rfl, fun _ ha => ha⟩, fun _ => rfl⟩
    rwa [Cursor.concat, if_pos hempty2]
  have hcount2 : ¬ l2.count = 0 := fun h => hempty2 (hzero2.mp h)
  by_cases hempty1 : c1.all = []
  · refine ⟨h, { first := l2.first, last := l2.last, curr := l2.first, count := l2.count },
      by rw [concat, if_neg hcount2, if_pos (hzero1.mpr hempty1)], ?_,
      ⟨fun _ _ => rfl, fun _ ha => ha⟩, fun _ => rfl⟩
    rw [Cursor.concat, if_neg hempty2, if_pos hempty1]
    exact ⟨h2.segment, h2.nodup, h2.first, h2.last, h2.first, h2.count⟩
  have hcount1 : ¬ l1.count = 0 := fun h => hempty1 (hzero1.mp h)
  have hnodup : (addresses (c1.all ++ c2.all)).Nodup := by
    rw [addresses_append, List.nodup_append]
    exact ⟨h1.nodup, h2.nodup, fun a ha b hb hab => hdisjoint a ha (hab ▸ hb)⟩
  obtain ⟨last1, hlast1⟩ := Option.isSome_iff_exists.mp (lastOf_isSome hempty1)
  obtain ⟨first2, hfirst2⟩ := Option.isSome_iff_exists.mp (firstOf_isSome hempty2)
  obtain ⟨h₁, h₂, hwrite₁, hwrite₂, hseg1, hseg2, hframe⟩ :=
    h1.segment.relink_next_prev h2.segment hnodup (lastOf c1.all) (firstOf c2.all)
  rw [hlast1] at hwrite₁
  rw [hfirst2, hlast1] at hwrite₂
  have hnext : writeNext h last1 l2.first = some h₁ := by rw [h2.first]; exact hwrite₁
  have hprev : writePrev h₁ first2 l1.last = some h₂ := by rw [h1.last, hlast1]; exact hwrite₂
  have hall := Cursor.all_concat c1 c2.all
  refine ⟨h₂, { l1 with last := l2.last, count := toInt32 (l1.count + l2.count) }, ?_,
    ⟨?_, ?_, ?_, ?_, ?_, ?_⟩, hframe, fun h => absurd h hempty2⟩
  · rw [concat, if_neg hcount2, if_neg hcount1, h1.last.trans hlast1, h2.first.trans hfirst2]
    rw [h1.last.trans hlast1] at hprev
    rw [h2.first.trans hfirst2] at hnext
    simp [hnext, hprev]
  · rw [hall, segment_append, Option.or_none, Option.or_none]
    exact ⟨hseg1, hseg2⟩
  · rwa [hall]
  · rw [hall, firstOf_append, firstOf_or hempty1]
    exact h1.first
  · rw [hall, lastOf_append, lastOf_or hempty2]
    exact h2.last
  · rw [firstOf_rest_concat hempty2 hempty1]
    exact h1.curr
  · rw [hall, h1.count_eq hsmall1, h2.count_eq hsmall2, List.length_append, Nat.cast_add]

end Concat

/-! ### What holds of the lists together -/

/-- The nodes of the lists that are in use. -/
structure Invariant (p : Plain α) (s : State α) (cells : ℕ → Option (Cursor (ℕ × α))) : Prop where
  plain : ∀ i, p i = (cells i).map (Cursor.map Prod.snd)
  represents : ∀ i c, cells i = some c → ∃ l, s.lists i = some l ∧ Represents s.heap l c
  disjoint : ∀ i j c c', i ≠ j → cells i = some c → cells j = some c' →
    ∀ a ∈ addresses c.all, a ∉ addresses c'.all

section Invariant

variable {p : Plain α} {s : State α} {cells : ℕ → Option (Cursor (ℕ × α))}

theorem Invariant.exists_cells (hinv : Invariant p s cells) {i : ℕ} (hi : (p i).isSome) :
    ∃ c l, cells i = some c ∧ s.lists i = some l ∧ Represents s.heap l c := by
  rw [hinv.plain, Option.isSome_map] at hi
  obtain ⟨c, hc⟩ := Option.isSome_iff_exists.mp hi
  obtain ⟨l, hl, hrep⟩ := hinv.represents i c hc
  exact ⟨c, l, hc, hl, hrep⟩

theorem Invariant.small (hinv : Invariant p s cells) (hsmall : Small p) {i : ℕ}
    {c : Cursor (ℕ × α)} (hc : cells i = some c) : c.all.length < 2 ^ 31 := by
  have h := hsmall i (c.map Prod.snd) (by rw [hinv.plain, hc]; rfl)
  simpa using h

/-- The nodes of one list are given, and those of the other lists stay. -/
theorem Invariant.update (hinv : Invariant p s cells) {i : ℕ} {c : Cursor (ℕ × α)} {h' : Heap α}
    {l' : AsnList} (hrep : Represents h' l' c)
    (hframe : ∀ j c', j ≠ i → cells j = some c' →
      ∀ a ∈ addresses c'.all, h' a = s.heap a ∧ a ∉ addresses c.all) :
    Invariant (Function.update p i (some (c.map Prod.snd)))
      ⟨h', Function.update s.lists i (some l')⟩ (Function.update cells i (some c)) where
  plain j := by
    by_cases hj : j = i
    · subst hj
      simp
    · simp [Function.update_of_ne hj, hinv.plain j]
  represents j c' hc' := by
    by_cases hj : j = i
    · subst hj
      rw [Function.update_self, Option.some_inj] at hc'
      exact ⟨l', Function.update_self .., hc' ▸ hrep⟩
    · rw [Function.update_of_ne hj] at hc'
      obtain ⟨l, hl, hrep'⟩ := hinv.represents j c' hc'
      exact ⟨l, by simpa [Function.update_of_ne hj] using hl,
        hrep'.frame fun a ha => (hframe j c' hj hc' a ha).1⟩
  disjoint j k c₁ c₂ hjk hc₁ hc₂ := by
    by_cases hj : j = i
    · subst hj
      rw [Function.update_self, Option.some_inj] at hc₁
      rw [Function.update_of_ne hjk.symm] at hc₂
      intro a ha ha'
      exact (hframe k c₂ hjk.symm hc₂ a ha').2 (hc₁ ▸ ha)
    · rw [Function.update_of_ne hj] at hc₁
      by_cases hk : k = i
      · subst hk
        rw [Function.update_self, Option.some_inj] at hc₂
        intro a ha
        exact hc₂ ▸ (hframe j c₁ hj hc₁ a ha).2
      · rw [Function.update_of_ne hk] at hc₂
        exact hinv.disjoint j k c₁ c₂ hjk hc₁ hc₂

/-- A list is not used any more. -/
theorem Invariant.drop (hinv : Invariant p s cells) (j : ℕ) :
    Invariant (Function.update p j none) s (Function.update cells j none) where
  plain i := by
    by_cases hi : i = j
    · subst hi
      simp
    · simp [Function.update_of_ne hi, hinv.plain i]
  represents i c hc := by
    by_cases hi : i = j
    · subst hi
      simp at hc
    · rw [Function.update_of_ne hi] at hc
      exact hinv.represents i c hc
  disjoint i k c c' hik hc hc' := by
    have hne {i : ℕ} {c : Cursor (ℕ × α)} (hc : Function.update cells j none i = some c) :
        cells i = some c := by
      by_cases hi : i = j
      · subst hi
        simp at hc
      · rwa [Function.update_of_ne hi] at hc
    exact hinv.disjoint i k c c' hik (hne hc) (hne hc')

theorem invariant_init : Invariant (α := α) (plain []) .init fun _ => none where
  plain _ := rfl
  represents _ _ h := by cases h
  disjoint _ _ _ _ _ h := by cases h

/-- A call for one list touches its nodes and the new one only. -/
theorem Invariant.edit (hinv : Invariant p s cells) {i : ℕ} {c : Call α} {l l' : AsnList}
    {h' : Heap α} {newNode : ℕ} (hl : s.lists i = some l) (hfree : s.heap newNode = none)
    (hact : act newNode c s.heap l = some (h', l')) (howned : Owned p (.edit i c)) :
    ∃ cells', Invariant (plainStep p (.edit i c)) ⟨h', Function.update s.lists i (some l')⟩
      cells' := by
  obtain ⟨c₀, l₀, hc₀, hl₀, hrep⟩ := hinv.exists_cells howned
  obtain rfl := Option.some.inj (hl.symm.trans hl₀)
  obtain ⟨h₁, l₁, hact', hedit⟩ := act_edited hrep hfree c
  obtain ⟨rfl, rfl⟩ := Prod.mk.inj (Option.some.inj (hact.symm.trans hact'))
  have hplain : plainStep p (.edit i c) = Function.update p i
      (some ((c.plain (fun d => (newNode, d)) c₀).map Prod.snd)) := by
    rw [plainStep, hinv.plain i, hc₀, Option.map_some, Option.map_some, map_plain]
  rw [hplain]
  refine ⟨_, hinv.update hedit.represents fun j c' hj hc' a ha => ?_⟩
  have hnot : a ∉ addresses c₀.all := hinv.disjoint j i c' c₀ hj hc' hc₀ a ha
  obtain ⟨l'', -, hrep'⟩ := hinv.represents j c' hc'
  have hne : a ≠ newNode := fun h => hrep'.free hfree (h ▸ ha)
  refine ⟨hedit.frame a hnot hne, fun hmem => ?_⟩
  rcases hedit.subset a hmem with h | h
  · exact hnot h
  · exact hne h

/-- Concatenation moves the nodes of the second list, unless it is empty. -/
theorem Invariant.concat (hinv : Invariant p s cells) {i j : ℕ} {l1 l2 l' : AsnList} {h' : Heap α}
    (h1 : s.lists i = some l1) (h2 : s.lists j = some l2)
    (hconcat : AsnList.concat s.heap l1 l2 = some (h', l')) (howned : Owned p (.concat i j))
    (hsmall : Small p) :
    ∃ cells', Invariant (plainStep p (.concat i j)) ⟨h', Function.update s.lists i (some l')⟩
      cells' := by
  obtain ⟨hij, hi, hj⟩ := howned
  obtain ⟨c1, l₁, hc1, hl1, hrep1⟩ := hinv.exists_cells hi
  obtain ⟨c2, l₂, hc2, hl2, hrep2⟩ := hinv.exists_cells hj
  obtain rfl := Option.some.inj (h1.symm.trans hl1)
  obtain rfl := Option.some.inj (h2.symm.trans hl2)
  obtain ⟨h₁, l₁, hconcat', hrep, hframe, hsame⟩ := concat_represents hrep1 hrep2
    (hinv.disjoint i j c1 c2 hij hc1 hc2) (hinv.small hsmall hc1) (hinv.small hsmall hc2)
  obtain ⟨rfl, rfl⟩ := Prod.mk.inj (Option.some.inj (hconcat.symm.trans hconcat'))
  have hp1 : p i = some (c1.map Prod.snd) := by rw [hinv.plain, hc1]; rfl
  have hp2 : p j = some (c2.map Prod.snd) := by rw [hinv.plain, hc2]; rfl
  -- What stands in other lists than these two.
  have hother : ∀ k c', k ≠ i → k ≠ j → cells k = some c' → ∀ a ∈ addresses c'.all,
      h' a = s.heap a ∧ a ∉ addresses (c1.concat c2.all).all := by
    intro k c' hki hkj hc' a ha
    have hnot : a ∉ addresses (c1.all ++ c2.all) := by
      rw [addresses_append, List.mem_append, not_or]
      exact ⟨hinv.disjoint k i c' c1 hki hc' hc1 a ha, hinv.disjoint k j c' c2 hkj hc' hc2 a ha⟩
    exact ⟨hframe.frame a hnot, by rwa [Cursor.all_concat]⟩
  by_cases hempty : c2.all = []
  · obtain rfl := hsame hempty
    have hsame : c1.concat c2.all = c1 := if_pos hempty
    rw [hsame] at hrep
    have hplain : plainStep p (.concat i j) = Function.update p i (some (c1.map Prod.snd)) := by
      have : plainStep p (.concat i j) = p := by simp [plainStep, hp1, hp2, hempty]
      rw [this, ← hp1, Function.update_eq_self]
    rw [hplain]
    exact ⟨_, hinv.update hrep fun k c' hki hc' a ha =>
      ⟨rfl, hinv.disjoint k i c' c1 hki hc' hc1 a ha⟩⟩
  · have hplain : plainStep p (.concat i j) = Function.update (Function.update p j none) i
        (some ((c1.concat c2.all).map Prod.snd)) := by
      simp [plainStep, hp1, hp2, hempty]
    rw [hplain]
    refine ⟨_, (hinv.drop j).update hrep fun k c' hki hc' a ha => ?_⟩
    by_cases hkj : k = j
    · subst hkj
      simp at hc'
    · rw [Function.update_of_ne hkj] at hc'
      exact hother k c' hki hkj hc' a ha

/-- A call keeps the lists apart, and does to each what it does to its sequence. -/
theorem Invariant.step (hinv : Invariant p s cells) {call : ListCall α} {s' : State α}
    (hstep : Step s call s') (howned : Owned p call) (hsmall : Small p) :
    ∃ cells', Invariant (plainStep p call) s' cells' := by
  cases hstep with
  | @new i hnew =>
      have hframe : ∀ j c', j ≠ i → cells j = some c' → ∀ a ∈ addresses c'.all,
          s.heap a = s.heap a ∧ a ∉ addresses (Cursor.empty : Cursor (ℕ × α)).all :=
        fun _ _ _ _ _ _ => ⟨rfl, List.not_mem_nil⟩
      exact ⟨_, hinv.update (represents_new s.heap) hframe⟩
  | edit newNode hl hfree hact => exact hinv.edit hl hfree hact howned
  | concat h1 h2 hconcat => exact hinv.concat h1 h2 hconcat howned hsmall

end Invariant

/-! ### Runs -/

/-- Every call of the trace is for lists that are in use, and no sequence gets too long. -/
def Proper (trace : List (ListCall α)) : Prop :=
  ∀ before call after, trace = before ++ call :: after →
    Owned (plain before) call ∧ Small (plain (before ++ [call]))

theorem plain_concat (trace : List (ListCall α)) (call : ListCall α) :
    plain (trace ++ [call]) = plainStep (plain trace) call := List.foldl_concat ..

theorem small_init : Small (plain ([] : List (ListCall α))) := fun _ _ h => by cases h

theorem Proper.small {trace : List (ListCall α)} (h : Proper trace) : Small (plain trace) := by
  induction trace using List.reverseRecOn with
  | nil => exact small_init
  | append_singleton trace call _ => exact (h trace call [] rfl).2

theorem Proper.of_concat {trace : List (ListCall α)} {call : ListCall α}
    (h : Proper (trace ++ [call])) : Proper trace ∧ Owned (plain trace) call := by
  refine ⟨fun before call' after heq => ?_, (h trace call [] rfl).1⟩
  exact h before call' (after ++ [call]) (by rw [heq]; simp)

theorem proper_nil : Proper ([] : List (ListCall α)) := by
  intro before call after h
  simp at h

theorem Proper.concat {trace : List (ListCall α)} {call : ListCall α} (h : Proper trace)
    (howned : Owned (plain trace) call) (hsmall : Small (plain (trace ++ [call]))) :
    Proper (trace ++ [call]) := by
  intro before call' after heq
  rcases after.eq_nil_or_concat with rfl | ⟨after, last, rfl⟩
  · obtain ⟨rfl, hcall⟩ := List.append_inj' heq rfl
    obtain rfl := List.head_eq_of_cons_eq hcall
    exact ⟨howned, hsmall⟩
  · rw [List.concat_eq_append, ← List.cons_append, ← List.append_assoc] at heq
    obtain ⟨rfl, -⟩ := List.append_inj' heq rfl
    exact h before call' after rfl

theorem run_invariant {trace : List (ListCall α)} {s : State α}
    (hrun : Transition.Run Step .init trace s) (hproper : Proper trace) :
    ∃ cells, Invariant (plain trace) s cells := by
  refine hrun.invariant (P := fun trace s =>
    Proper trace → ∃ cells, Invariant (plain trace) s cells) ?_ ?_ hproper
  · exact fun _ => ⟨_, invariant_init⟩
  · intro trace s call s' ih hstep hproper
    obtain ⟨htrace, howned⟩ := hproper.of_concat
    obtain ⟨cells, hinv⟩ := ih htrace
    rw [plain_concat]
    exact hinv.step hstep howned htrace.small

theorem Represents.isSequence {h : Heap α} {l : AsnList} {c : Cursor (ℕ × α)}
    (hrep : Represents h l c) (hsmall : c.all.length < 2 ^ 31) :
    IsSequence h l (c.map Prod.snd) := by
  have hcurr : l.curr = (addresses c.all)[(c.map Prod.snd).past.length]? := by
    rw [hrep.curr, Cursor.all, addresses_append, List.getElem?_append_right (by simp [Cursor.map])]
    simp [Cursor.map, firstOf, List.head?_eq_getElem?]
  refine ⟨addresses c.all, hrep.nodup, ?_, ?_, ?_, ?_, hcurr, ?_⟩
  · rw [hrep.first]
    exact hrep.segment.follows_next
  · rw [hrep.last]
    exact hrep.segment.follows_prev
  · rw [length_addresses, hrep.count_eq hsmall]
  · cases hget : (addresses c.all)[(c.map Prod.snd).past.length]? with
    | none => exact .inl (hcurr.trans hget)
    | some a => exact .inr ⟨a, List.mem_of_getElem? hget, hcurr.trans hget⟩
  · rw [hrep.segment.data]
    simp

/-! ### Runs that are played -/

/-- A call with the address that `Asn1Alloc` returns. -/
def perform (s : State α) (newNode : ℕ) : ListCall α → Option (State α)
  | .new i =>
      if s.lists i = none then some ⟨s.heap, Function.update s.lists i (some asnListNew)⟩ else none
  | .edit i c => do
      let l ← s.lists i
      let r ← act newNode c s.heap l
      if (s.heap newNode).isNone then some ⟨r.1, Function.update s.lists i (some r.2)⟩ else none
  | .concat i j => do
      let l1 ← s.lists i
      let l2 ← s.lists j
      let r ← concat s.heap l1 l2
      some ⟨r.1, Function.update s.lists i (some r.2)⟩

def play : List (ListCall α × ℕ) → State α → Option (State α)
  | [], s => some s
  | (call, newNode) :: calls, s => (perform s newNode call).bind (play calls)

theorem step_of_perform {s s' : State α} {newNode : ℕ} {call : ListCall α}
    (h : perform s newNode call = some s') : Step s call s' := by
  cases call with
  | new i =>
      rw [perform, Option.ite_none_right_eq_some, Option.some_inj] at h
      obtain ⟨hnew, rfl⟩ := h
      exact .new hnew
  | edit i c =>
      simp only [perform, Option.bind_eq_bind, Option.bind_eq_some_iff,
        Option.ite_none_right_eq_some, Option.isNone_iff_eq_none, Option.some_inj] at h
      obtain ⟨l, hl, ⟨h', l'⟩, hact, hfree, rfl⟩ := h
      exact .edit newNode hl hfree hact
  | concat i j =>
      simp only [perform, Option.bind_eq_bind, Option.bind_eq_some_iff, Option.some_inj] at h
      obtain ⟨l1, h1, l2, h2, ⟨h', l'⟩, hconcat, rfl⟩ := h
      exact .concat h1 h2 hconcat

theorem run_of_play {calls : List (ListCall α × ℕ)} {s s' : State α}
    (h : play calls s = some s') : Transition.Run Step s (calls.map Prod.fst) s' := by
  induction calls generalizing s with
  | nil =>
      obtain rfl := Option.some.inj h
      exact .nil
  | cons call calls ih =>
      obtain ⟨s₁, hfirst, hrest⟩ := Option.bind_eq_some_iff.mp h
      exact (Transition.Run.single (step_of_perform hfirst)).trans (ih hrest)

/-! ### Every list is a sequence -/

/-- In every run of calls for lists that are in use and stay below 2^31 nodes, each list is the
sequence that the same calls give on plain sequences, and no call that can come next reads or writes
through a pointer that is not allocated. -/
theorem run_isSequence (α : Type) (trace : List (ListCall α)) (s : State α)
    (hrun : Transition.Run Step .init trace s) (hproper : Proper trace) :
    (∀ i c, plain trace i = some c → ∃ l, s.lists i = some l ∧ IsSequence s.heap l c) ∧
      (∀ i l newNode call, (plain trace i).isSome → s.lists i = some l → s.heap newNode = none →
        (act newNode call s.heap l).isSome) ∧
      ∀ i j l1 l2, Owned (plain trace) (.concat i j) → s.lists i = some l1 →
        s.lists j = some l2 → (concat s.heap l1 l2).isSome := by
  obtain ⟨cells, hinv⟩ := run_invariant hrun hproper
  refine ⟨fun i c hc => ?_, fun i l newNode call hi hl hfree => ?_,
    fun i j l1 l2 howned h1 h2 => ?_⟩
  · obtain ⟨c', l, hc', hl, hrep⟩ := hinv.exists_cells (by rw [hc]; rfl)
    rw [hinv.plain, hc', Option.map_some, Option.some_inj] at hc
    exact ⟨l, hl, hc ▸ hrep.isSequence (hinv.small hproper.small hc')⟩
  · obtain ⟨c, l₀, hc, hl₀, hrep⟩ := hinv.exists_cells hi
    obtain rfl := Option.some.inj (hl.symm.trans hl₀)
    obtain ⟨h', l', hact, -⟩ := act_edited hrep hfree call
    rw [hact]
    rfl
  · obtain ⟨hij, hi, hj⟩ := howned
    obtain ⟨c1, l₁, hc1, hl1, hrep1⟩ := hinv.exists_cells hi
    obtain ⟨c2, l₂, hc2, hl2, hrep2⟩ := hinv.exists_cells hj
    obtain rfl := Option.some.inj (h1.symm.trans hl1)
    obtain rfl := Option.some.inj (h2.symm.trans hl2)
    obtain ⟨h', l', hconcat, -⟩ := concat_represents hrep1 hrep2
      (hinv.disjoint i j c1 c2 hij hc1 hc2) (hinv.small hproper.small hc1)
      (hinv.small hproper.small hc2)
    rw [hconcat]
    rfl

theorem run_isSequence_at : ∃ s l, Transition.Run Step .init
    [ListCall.new 0, .edit 0 (.append 'x')] s ∧ s.lists 0 = some l ∧
      IsSequence s.heap l ⟨[], ['x']⟩ := by
  have hrun : Transition.Run Step .init [ListCall.new 0, .edit 0 (.append 'x')] _ :=
    @run_of_play _ [(.new 0, 0), (.edit 0 (.append 'x'), 7)] _ _ rfl
  -- Only the first list has been made.
  have hsmall {p : Plain Char} {c : Cursor Char}
      (hp : p = Function.update (fun _ => none) 0 (some c)) (hc : c.all.length < 2 ^ 31) :
      Small p := by
    intro i c' hc'
    rw [hp] at hc'
    by_cases hi : i = 0
    · subst hi
      rw [Function.update_self, Option.some_inj] at hc'
      exact hc' ▸ hc
    · rw [Function.update_of_ne hi] at hc'
      cases hc'
  have hproper : Proper [ListCall.new 0, .edit 0 (.append 'x')] := by
    have hnew : Proper ([] ++ [ListCall.new 0]) :=
      proper_nil.concat trivial (hsmall (c := .empty) rfl (by norm_num))
    refine hnew.concat rfl (hsmall (c := ⟨[], ['x']⟩) ?_ ?_)
    · simp [plain, plainStep, Call.plain]
      rfl
    · norm_num [Cursor.all]
  obtain ⟨l, hl, hseq⟩ := (run_isSequence Char _ _ hrun hproper).1 0 ⟨[], ['x']⟩ rfl
  exact ⟨_, l, hrun, hl, hseq⟩

/-! ### What a list does not count -/

/-- A list of `n` nodes. -/
theorem exists_run_append (n : ℕ) : ∃ s, Transition.Run Step .init
    (ListCall.new 0 :: List.replicate n (.edit 0 (.append ()))) s ∧
      (∀ a, n ≤ a → s.heap a = none) ∧
      ∃ l c, s.lists 0 = some l ∧ Represents s.heap l c ∧ c.all.length = n ∧
        plain (ListCall.new 0 :: List.replicate n (.edit 0 (.append ()))) 0 =
          some (c.map Prod.snd) := by
  induction n with
  | zero =>
      exact ⟨_, .single (.new rfl), fun _ _ => rfl, _, _, rfl, represents_new _, rfl, rfl⟩
  | succ n ih =>
      obtain ⟨s, hrun, hfree, l, c, hl, hrep, hlength, hplain⟩ := ih
      obtain ⟨h', l', hact, hedit⟩ := append_edited hrep (hfree n le_rfl) ()
      have htrace : ListCall.new 0 :: List.replicate (n + 1) (.edit 0 (.append ())) =
          (ListCall.new 0 :: List.replicate n (.edit 0 (.append ()))) ++
            [.edit 0 (Call.append ())] := by
        rw [List.replicate_succ', List.cons_append]
      rw [htrace, plain_concat]
      refine ⟨_, hrun.snoc (.edit n hl (hfree n le_rfl) hact), fun a ha => ?_, l', _,
        by simp, hedit.represents, ?_, ?_⟩
      · have hnot : a ∉ addresses c.all := fun h =>
          hrep.segment.allocated a h (hfree a (by omega))
        exact (hedit.frame a hnot (by omega)).trans (hfree a (by omega))
      · simp [hlength]
      · rw [plainStep, hplain]
        simp [Call.plain]

/-- Only the counter of a list can hold too little. -/
theorem not_isSequence_of_overflow {n : ℕ} (hn : toInt32 n < 0) :
    ¬ ∀ (trace : List (ListCall Unit)) (s : State Unit), Transition.Run Step .init trace s →
      (∀ before call after, trace = before ++ call :: after → Owned (plain before) call) →
        ∀ i c, plain trace i = some c → ∃ l, s.lists i = some l ∧ IsSequence s.heap l c := by
  intro hall
  obtain ⟨s, hrun, -, l, c, hl, hrep, hlength, hplain⟩ := exists_run_append n
  have howned : ∀ before call after,
      ListCall.new 0 :: List.replicate n (.edit 0 (.append ())) = before ++ call :: after →
        Owned (plain before) call := by
    intro before call after heq
    cases before with
    | nil =>
        obtain rfl := List.head_eq_of_cons_eq heq
        trivial
    | cons first before =>
        rw [List.cons_append, List.cons.injEq] at heq
        obtain ⟨rfl, hrest⟩ := heq
        have hmem := List.eq_of_mem_replicate (hrest ▸ List.mem_append_right before
          List.mem_cons_self : call ∈ List.replicate n (.edit 0 (.append ())))
        have hbefore := List.eq_replicate_of_mem fun b hb => List.eq_of_mem_replicate
          (hrest ▸ List.mem_append_left _ hb : b ∈ List.replicate n (.edit 0 (.append ())))
        obtain ⟨_, _, _, _, _, _, _, _, hsome⟩ := exists_run_append before.length
        rw [hmem, hbefore, Owned, hsome]
        rfl
  obtain ⟨l', hl', nodes, -, -, -, hcount, -⟩ := hall _ s hrun howned 0 _ hplain
  obtain rfl := Option.some.inj (hl.symm.trans hl')
  rw [hrep.count, hlength] at hcount
  omega

/-- Two lists of one element each are concatenated, and another one is appended to the second. -/
def sharedCalls : List (ListCall Unit × ℕ) :=
  [(.new 0, 0), (.new 1, 0), (.edit 0 (.append ()), 1), (.edit 1 (.append ()), 2),
    (.concat 0 1, 0), (.edit 1 (.append ()), 3)]

theorem not_isSequence_of_shared :
    ¬ ∀ (trace : List (ListCall Unit)) (s : State Unit), Transition.Run Step .init trace s →
      (∀ before i j after, trace = before ++ .concat i j :: after →
        Owned (plain before) (.concat i j)) →
        ∀ i c, plain trace i = some c → ∃ l, s.lists i = some l ∧ IsSequence s.heap l c := by
  intro hall
  have hplay : (play sharedCalls .init).isSome := rfl
  have hrun := run_of_play (Option.some_get hplay).symm
  have howned : ∀ before i j after, sharedCalls.map Prod.fst = before ++ .concat i j :: after →
      Owned (plain before) (.concat i j) := by
    intro before i j after heq
    simp [sharedCalls, List.cons_eq_append_iff] at heq
    obtain ⟨rfl, ⟨rfl, rfl⟩, rfl⟩ := heq
    exact ⟨by decide, rfl, rfl⟩
  obtain ⟨l, hl, nodes, -, hnext, -, hcount, -⟩ :=
    hall _ _ hrun howned 0 ⟨[], [(), ()]⟩ rfl
  have hl' : ((play sharedCalls .init).get hplay).lists 0 = some ⟨some 1, some 2, some 1, 2⟩ := by
    rfl
  obtain rfl := Option.some.inj (hl.symm.trans hl')
  have hnodes : nodes = [1, 2, 3] := hnext.unique (.step rfl (.step rfl (.step rfl .stop)))
  rw [hnodes] at hcount
  exact absurd hcount (by decide)

/-- After 2^31 calls of `AsnListAppend` the counter has overflowed. And with two lists, one element
each, that are concatenated, a call of `AsnListAppend` for the second list adds a node to what the
first one leads through, which the first one does not count. -/
theorem not_isSequence :
    (¬ ∀ (trace : List (ListCall Unit)) (s : State Unit), Transition.Run Step .init trace s →
      (∀ before call after, trace = before ++ call :: after → Owned (plain before) call) →
        ∀ i c, plain trace i = some c → ∃ l, s.lists i = some l ∧ IsSequence s.heap l c) ∧
    ¬ ∀ (trace : List (ListCall Unit)) (s : State Unit), Transition.Run Step .init trace s →
      (∀ before i j after, trace = before ++ .concat i j :: after →
        Owned (plain before) (.concat i j)) →
        ∀ i c, plain trace i = some c → ∃ l, s.lists i = some l ∧ IsSequence s.heap l c :=
  ⟨not_isSequence_of_overflow (n := 2 ^ 31) (by decide), not_isSequence_of_shared⟩

end AsnList

end Esnacc
