import Esnacc.Compiler.NormalizeSteps

/-!
Normalisation keeps the tags that `GetTags` computes where its steps keep them. In a run, what
the types mean is read as at the start, and when normalisation has come to every type, the
types are what they mean.
-/

namespace Esnacc.Compiler.Normalize

variable {ι : Type} [DecidableEq ι] {s₀ s s' : Types ι} {implicitTags : ι → Bool} {a : Action ι}

/-- What holds in every state of a run: types are linked, and what there is from the start is
read as it was. -/
structure ReadsAsBefore (implicitTags : ι → Bool) (s₀ s : Types ι) : Prop where
  linked : s.Linked
  used : s₀.used ⊆ s.used
  reads : ∀ x ∈ s₀.used, ∀ imp tags b, (s₀.meaning implicitTags).Reads x imp tags b →
    (s.meaning implicitTags).Reads x imp tags b

omit [DecidableEq ι] in
theorem ReadsAsBefore.refl (h : s₀.Linked) : ReadsAsBefore implicitTags s₀ s₀ :=
  ⟨h, subset_rfl, fun _ _ _ _ _ => id⟩

omit [DecidableEq ι] in
theorem ReadsAsBefore.trans (h : ReadsAsBefore implicitTags s₀ s)
    (h' : ReadsAsBefore implicitTags s s') : ReadsAsBefore implicitTags s₀ s' :=
  ⟨h'.linked, h.used.trans h'.used, fun x hx imp tags b hr =>
    h'.reads x (h.used hx) imp tags b (h.reads x hx imp tags b hr)⟩

omit [DecidableEq ι] in
/-- A reference is only marked that is to be implicit. -/
theorem replaces_of_mark {default : Bool} {t link : ι} (hbody : (s.type t).body = .typeRef link)
    (hdefault : default = true) (hlast : lastImplicit (s.type t).tags = true)
    (hcount : ∃ n k, s.graph.countTags n link = some k ∧ k ≠ 0)
    (hk : Keeps implicitTags s (.reference default t link)) : s.Replaces implicitTags t := by
  by_cases himp : (s.type t).isImplicit = true
  · exact .inl himp
  · obtain ⟨n, k, hn, hk0⟩ := hcount
    have hhas := Types.hasTags_of_countTags hn hk0
    have hmodule := (hk (by simpa using himp) hlast hhas).mpr ⟨hdefault, n, k, hn, hk0⟩
    exact .inr ⟨hmodule, hlast, link, by rw [hbody]; rfl, hhas⟩

/-- The simulation, step by step. -/
theorem readsAsBefore_of_step (hs : s.Linked) (h : Step s a s') (hk : Keeps implicitTags s a) :
    ReadsAsBefore implicitTags s s' := by
  cases h with
  | addConsTypeDef ht hd hbody =>
      exact ⟨Types.linked_addConsTypeDef hs ht hd hbody hk,
        @Types.addConsTypeDef_used ι s _ _ _ ▸ Set.subset_insert _ _,
        fun x hx _ _ _ hr => Types.reads_addConsTypeDef hs ht hd hbody hk hr hx⟩
  | select ht hbody =>
      exact ⟨Types.linked_select hs ht hbody hk, subset_rfl,
        fun x hx _ _ _ hr => Types.reads_select hs ht hbody hk hr hx⟩
  | mark ht hbody hdefault hlast hcount =>
      have hr := replaces_of_mark hbody hdefault hlast hcount hk
      refine ⟨Types.linked_mark hs (Types.lastImplicit_ne_nil hlast), subset_rfl, ?_⟩
      intro x hx imp tags b hreads
      refine hreads.simulate hx (fun x u hx hu => hs.target x hx u (Types.target_of_meaning hu))
        (fun x imp _ hno => ?_) (fun x u imp tags b _ hu hr' => ?_)
      · exact .stop_of (Types.meaning_mark hr x) hno imp
      · exact .link_of (Types.meaning_mark hr x) hu hr'
  | leave => exact .refl hs

theorem hasTags_of_step (hs : s.Linked) (h : Step s a s') (hk : Keeps implicitTags s a) {x : ι}
    (hx : x ∈ s.used) : s'.HasTags x ↔ s.HasTags x := by
  cases h with
  | addConsTypeDef ht hd hbody => exact Types.hasTags_addConsTypeDef hs ht hd hbody hk hx
  | select ht hbody => exact Types.hasTags_select hs ht hbody hk x
  | mark => exact Types.hasTags_mark x
  | leave => exact Iff.rfl

/-- A reference that normalisation has come to: it is marked if it is to be implicit. -/
structure Settled (implicitTags : ι → Bool) (s : Types ι) (t u : ι) : Prop where
  used : t ∈ s.used
  body : (s.type t).body = .typeRef u
  marked : s.Replaces implicitTags t → (s.type t).isImplicit = true

/-- References are not changed but by being marked. -/
theorem type_of_step (h : Step s a s') {x u : ι} (hx : x ∈ s.used)
    (hbody : (s.type x).body = .typeRef u) :
    s'.type x = s.type x ∨ s'.type x = { s.type x with isImplicit := true } := by
  cases h with
  | @addConsTypeDef t d ht hd hin =>
      refine .inl (Types.addConsTypeDef_type_of_ne ?_ fun hxd => hd (hxd ▸ hx))
      rintro rfl
      rcases hin with ⟨_, hin⟩ | ⟨_, hin⟩ <;> rw [hbody] at hin <;> cases hin
  | @select default t link ht hsel =>
      refine .inl (Types.select_type_of_ne ?_)
      rintro rfl
      rw [hbody] at hsel
      cases hsel
  | @mark _ t =>
      by_cases hxt : x = t
      · subst hxt
        exact .inr (Types.update_type_self x _)
      · exact .inl (Types.update_type_of_ne hxt _)
  | leave => exact .inl rfl

theorem Settled.step {t u : ι} (hset : Settled implicitTags s t u) (hs : s.Linked)
    (h : Step s a s') (hk : Keeps implicitTags s a) : Settled implicitTags s' t u := by
  have hused := (readsAsBefore_of_step hs h hk).used hset.used
  rcases type_of_step h hset.used hset.body with htype | htype
  · refine ⟨hused, by rw [htype]; exact hset.body, fun hr => ?_⟩
    rw [htype]
    refine hset.marked ((Types.replaces_congr htype fun v hv => ?_).mp hr)
    exact hasTags_of_step hs h hk (hs.target t hset.used v hv)
  · exact ⟨hused, by rw [htype]; exact hset.body, fun _ => by rw [htype]⟩

theorem settled_of_reference {default : Bool} {t u : ι}
    (h : Step s (.reference default t u) s') (hk : Keeps implicitTags s (.reference default t u)) :
    Settled implicitTags s' t u := by
  cases h with
  | mark ht hbody =>
      refine ⟨ht, ?_, fun _ => by rw [Types.mark, Types.update_type_self]⟩
      rw [(Types.mark_type t).2]
      exact hbody
  | leave ht hbody hleave =>
      refine ⟨ht, hbody, ?_⟩
      rintro (himp | ⟨hmodule, hlast, v, hv, hhas⟩)
      · exact himp
      · by_contra himp
        rw [hbody] at hv
        cases hv
        obtain ⟨hdefault, n, k, hn, hk0⟩ := (hk (by simpa using himp) hlast hhas).mp hmodule
        obtain ⟨n', hn'⟩ := hleave hdefault hlast
        exact hk0 (TypeGraph.countTags_unique hn hn')

theorem invariant_of_run {trace : List (Action ι)} (hs : s₀.Linked)
    (h : Transition.Run (Transition.restrict Step (Keeps implicitTags)) s₀ trace s) :
    ReadsAsBefore implicitTags s₀ s ∧
      ∀ default t u, Action.reference default t u ∈ trace → Settled implicitTags s t u := by
  refine h.invariant (P := fun trace s => ReadsAsBefore implicitTags s₀ s ∧
    ∀ default t u, Action.reference default t u ∈ trace → Settled implicitTags s t u)
    ⟨.refl hs, by simp⟩ ?_
  rintro trace s a s' ⟨hinv, hsettled⟩ ⟨hstep, hk⟩
  refine ⟨hinv.trans (readsAsBefore_of_step hinv.linked hstep hk), ?_⟩
  intro default t u hmem
  rcases List.mem_append.mp hmem with hmem | hmem
  · exact (hsettled default t u hmem).step hinv.linked hstep hk
  · cases List.mem_singleton.mp hmem
    exact settled_of_reference hstep hk

omit [DecidableEq ι] in
open Classical in
/-- Where normalisation has come to every type, the types are as they are meant. -/
theorem meaning_eq_graph {trace : List (Action ι)} (hf : Finished trace s)
    (hsettled : ∀ default t u, Action.reference default t u ∈ trace → Settled implicitTags s t u)
    {x : ι} (hx : x ∈ s.used) : s.graph.type x = (s.meaning implicitTags).type x := by
  have himp : (s.type x).isImplicit = decide (s.Replaces implicitTags x) := by
    by_cases hr : s.Replaces implicitTags x
    · rw [decide_eq_true hr]
      by_contra hne
      rcases hr.resolve_left hne with ⟨_, _, u, hu, _⟩
      · cases hbody : (s.type x).body with
        | typeRef link =>
            obtain ⟨default, hmem⟩ := hf.references x hx link hbody
            exact hne ((hsettled default x link hmem).marked hr)
        | selection link => exact absurd hbody (hf.selections x hx link)
        | choice elmts => rw [hbody] at hu; cases hu
        | constructed code => rw [hbody] at hu; cases hu
        | other => rw [hbody] at hu; cases hu
    · simp only [hr, decide_false]
      by_contra hne
      exact hr (.inl (by simpa using hne))
  cases hbody : (s.type x).body with
  | selection u => exact absurd hbody (hf.selections x hx u)
  | typeRef u => simp [Types.graph, Types.meaning, Types.target, Types.basicType, hbody, himp]
  | choice elmts => simp [Types.graph, Types.meaning, Types.target, Types.basicType, hbody, himp]
  | constructed code =>
      simp [Types.graph, Types.meaning, Types.target, Types.basicType, hbody, himp]
  | other => simp [Types.graph, Types.meaning, Types.target, Types.basicType, hbody, himp]

/-- **Normalisation keeps the tags.** Where every step keeps them, `GetTags` computes for the
normalised types what it computes for the types as they are meant before. -/
theorem computes_of_run {trace : List (Action ι)} (hs : s₀.Linked)
    (h : Transition.Run (Transition.restrict Step (Keeps implicitTags)) s₀ trace s)
    (hf : Finished trace s) {t : ι} (ht : t ∈ s₀.used) {r : List Tag × Bool}
    (hr : Types.Computes (s₀.meaning implicitTags) t r) : Types.Computes s.graph t r := by
  obtain ⟨hinv, hsettled⟩ := invariant_of_run hs h
  obtain ⟨n, hr⟩ := hr
  have hmeant : (s.meaning implicitTags).Yields t r := by
    refine (TypeGraph.yields_of_getTags hr).transfer ht hinv.reads ?_
    intro x hx imp tags elmts hreads
    exact hs.elmts_mem hreads hx
  have hgraph : s.graph.Yields t r := by
    refine hmeant.transfer (hinv.used ht) ?_ ?_
    · intro x hx imp tags b hreads
      refine hreads.simulate hx
        (fun x u hx hu => hinv.linked.target x hx u (Types.target_of_meaning hu)) ?_ ?_
      · exact fun x imp hx hno => .stop_of (meaning_eq_graph hf hsettled hx) hno imp
      · exact fun x u imp tags b hx hu hr' => .link_of (meaning_eq_graph hf hsettled hx) hu hr'
    · intro x hx imp tags elmts hreads
      exact hinv.linked.elmts_mem hreads hx
  exact TypeGraph.getTags_of_yields hgraph

/-- `0` is the selection `[5] a < T` in a module with IMPLICIT TAGS, `1` is the alternative `a`,
an INTEGER, and `2` is an inline SEQUENCE with the tag `[7]`. -/
def taggedSelection : Types ℕ where
  type
    | 0 => ⟨[⟨⟨.cntx, 5, none⟩, false⟩], false, .selection 1⟩
    | 1 => ⟨[⟨⟨.univ, 2, none⟩, false⟩], false, .other⟩
    | 2 => ⟨[⟨⟨.cntx, 7, none⟩, false⟩], true, .constructed 16⟩
    | _ => ⟨[], false, .other⟩
  used := {0, 1, 2}

theorem taggedSelection_linked : taggedSelection.Linked := by
  constructor
  case target =>
    rintro x (rfl | rfl | rfl) u hu <;> simp_all [taggedSelection, Types.target]
  case choice =>
    rintro x (rfl | rfl | rfl) elmts h <;> simp_all [taggedSelection]
  case implicitTagged =>
    rintro x (rfl | rfl | rfl) h <;> simp_all [taggedSelection]

/-- The SEQUENCE is moved, the reference to it marked, and the selection replaced. -/
theorem taggedSelection_run :
    Transition.Run (Transition.restrict Step (Keeps fun _ => true)) taggedSelection
      [.addConsTypeDef 2 3, .reference true 2 3, .select true 0 1]
      (((taggedSelection.addConsTypeDef 2 3).mark 2).select true 0 1) := by
  have hfirst : Transition.restrict Step (Keeps fun _ => true) taggedSelection
      (.addConsTypeDef 2 3) (taggedSelection.addConsTypeDef 2 3) := by
    refine ⟨.addConsTypeDef (by simp [taggedSelection]) (by simp [taggedSelection])
      (.inr ⟨16, rfl⟩), ?_⟩
    rintro code hcode
    cases hcode
    refine ⟨by simp [taggedSelection], fun h => ?_⟩
    simp [taggedSelection, Types.endsWith] at h
  have hsecond : Transition.restrict Step (Keeps fun _ => true) (taggedSelection.addConsTypeDef 2 3)
      (.reference true 2 3) ((taggedSelection.addConsTypeDef 2 3).mark 2) := by
    refine ⟨.mark (by simp [Types.addConsTypeDef_used, taggedSelection]) rfl rfl rfl
      ⟨1, 1, rfl, by decide⟩, ?_⟩
    intro himp
    cases himp
  have hhas : ((taggedSelection.addConsTypeDef 2 3).mark 2).HasTags 1 := .own (by decide)
  have hthird : Transition.restrict Step (Keeps fun _ => true)
      ((taggedSelection.addConsTypeDef 2 3).mark 2) (.select true 0 1)
      (((taggedSelection.addConsTypeDef 2 3).mark 2).select true 0 1) := by
    refine ⟨.select (by simp [Types.addConsTypeDef_used, taggedSelection, Types.mark]) rfl,
      by decide, ?_⟩
    refine fun _ => ⟨iff_of_true (.inl rfl) (.inr ⟨rfl, rfl, 1, rfl, hhas⟩), ?_⟩
    rintro _ ⟨u, hu, _⟩
    cases hu
  exact .snoc (.snoc (.single hfirst) hsecond) hthird

theorem taggedSelection_finished :
    Finished [.addConsTypeDef 2 3, .reference true 2 3, .select true 0 1]
      (((taggedSelection.addConsTypeDef 2 3).mark 2).select true 0 1) := by
  have hused : (((taggedSelection.addConsTypeDef 2 3).mark 2).select true 0 1).used =
      {3, 0, 1, 2} := rfl
  constructor
  case selections =>
    rw [hused]
    rintro x (rfl | rfl | rfl | rfl) u h <;> cases h
  case references =>
    rw [hused]
    rintro x (rfl | rfl | rfl | rfl) u h <;> cases h
    exact ⟨true, by simp⟩

/-- The tag `[5]` is meant to replace the tag of the INTEGER. -/
theorem taggedSelection_meaning :
    Types.Computes (taggedSelection.meaning fun _ => true) 0 ([⟨.cntx, 5, none⟩], false) := by
  have hr : taggedSelection.Replaces (fun _ => true) 0 :=
    .inr ⟨rfl, rfl, 1, rfl, .own (by decide)⟩
  have henter : ((taggedSelection.meaning fun _ => true).enter 0 false).1 ++
      ((taggedSelection.meaning fun _ => true).enter 1
        ((taggedSelection.meaning fun _ => true).refIsImplicit 0
          ((taggedSelection.meaning fun _ => true).enter 0 false).2)).1 = [⟨.cntx, 5, none⟩] := by
    rw [Types.refIsImplicit_of_replaces hr,
      TypeGraph.enter_of_ne_nil (t := 1) (by simp [taggedSelection]), TypeGraph.enter_false]
    rfl
  have hreads := Types.reads_of_target (s := taggedSelection) (fun _ => true)
    (t := 0) (u := 1) rfl rfl false
  rw [henter] at hreads
  exact TypeGraph.getTags_of_yields (.tags hreads (.inl (by simp)))

theorem taggedSelection_computes :
    Types.Computes (((taggedSelection.addConsTypeDef 2 3).mark 2).select true 0 1).graph 0
      ([⟨.cntx, 5, none⟩], false) :=
  computes_of_run taggedSelection_linked taggedSelection_run taggedSelection_finished
    (by simp [taggedSelection]) taggedSelection_meaning

/-- `0` is the selection `a < T` without a tag in a module with IMPLICIT TAGS, and `1` is the
alternative `a`, which is `[0] INTEGER`. -/
def bareSelection : Types ℕ where
  type
    | 0 => ⟨[], false, .selection 1⟩
    | _ => ⟨[⟨⟨.cntx, 0, none⟩, false⟩], true, .other⟩
  used := {0, 1}

/-- The tag `[0]` is meant to stay. -/
theorem bareSelection_meaning :
    Types.Computes (bareSelection.meaning fun _ => true) 0 ([⟨.cntx, 0, none⟩], false) := by
  have hnot : ¬bareSelection.Replaces (fun _ => true) 0 := by
    rintro (h | ⟨_, h, _⟩) <;> cases h
  have henter : ((bareSelection.meaning fun _ => true).enter 0 false).1 ++
      ((bareSelection.meaning fun _ => true).enter 1
        ((bareSelection.meaning fun _ => true).refIsImplicit 0
          ((bareSelection.meaning fun _ => true).enter 0 false).2)).1 = [⟨.cntx, 0, none⟩] := by
    rw [Types.refIsImplicit_of_not_replaces hnot, TypeGraph.enter_false,
      TypeGraph.enter_of_ne_nil (t := 1) (by simp [bareSelection])]
    rfl
  have hreads := Types.reads_of_target (s := bareSelection) (fun _ => true)
    (t := 0) (u := 1) rfl rfl false
  rw [henter] at hreads
  exact TypeGraph.getTags_of_yields (.tags hreads (.inl (by simp)))

/-- The tag of the alternative is lost. -/
theorem bareSelection_loses_tag : bareSelection.Linked ∧
    Transition.Run Step bareSelection [.select true 0 1] (bareSelection.select true 0 1) ∧
    Finished [.select true 0 1] (bareSelection.select true 0 1) ∧ 0 ∈ bareSelection.used ∧
    Types.Computes (bareSelection.meaning fun _ => true) 0 ([⟨.cntx, 0, none⟩], false) ∧
    ¬Types.Computes (bareSelection.select true 0 1).graph 0 ([⟨.cntx, 0, none⟩], false) := by
  refine ⟨?_, .single (.select (by simp [bareSelection]) rfl), ?_, by simp [bareSelection],
    bareSelection_meaning, ?_⟩
  · constructor
    case target =>
      rintro x (rfl | rfl) u hu <;> simp_all [bareSelection, Types.target]
    case choice =>
      rintro x (rfl | rfl) elmts h <;> cases h
    case implicitTagged =>
      rintro x (rfl | rfl) h <;> simp_all [bareSelection]
  · have hused : (bareSelection.select true 0 1).used = {0, 1} := rfl
    constructor
    case selections =>
      rw [hused]
      rintro x (rfl | rfl) u h <;> cases h
    case references =>
      rw [hused]
      rintro x (rfl | rfl) u h <;> cases h
  · rintro ⟨n, hn⟩
    cases n with
    | zero => cases hn
    | succ n =>
        have hempty : (bareSelection.select true 0 1).graph.getTags (n + 1) 0 =
            some (.ok ([], false)) := rfl
        rw [hempty] at hn
        cases hn

end Esnacc.Compiler.Normalize
