import Esnacc.Compiler.SortTypes

/-!
What the sorter of type definitions does: each round takes off what depends on nothing that is
left, so that what stays in the end is what leads to a knot.
-/

namespace Esnacc.Compiler.Dependency

open Relation Precedence

variable {ι : Type}

/-! ### Rounds -/

section Sweep

variable [DecidableEq ι] {refList : ι → List ι}

theorem isSome_getElmtIndex {td : ι} {tdl : List ι} :
    (getElmtIndex td tdl).isSome = true ↔ td ∈ tdl := by
  rw [getElmtIndex, List.isSome_idxOf?]

theorem keep_iff {refs : List ι} {currTd : ι} {tdl : List ι} :
    keep refs currTd tdl = true ↔ ∃ y ∈ tdl, y ≠ currTd ∧ y ∈ refs := by
  simp only [keep, List.any_eq_true, Bool.and_eq_true, decide_eq_true_eq, isSome_getElmtIndex]
  constructor
  · rintro ⟨y, hy, hne, hmem⟩
    exact ⟨y, hmem, hne, hy⟩
  · rintro ⟨y, hmem, hne, hy⟩
    exact ⟨y, hy, hne, hmem⟩

theorem sweep_perm (front rest : List ι) :
    ((sweep refList front rest).1 ++ (sweep refList front rest).2).Perm (front ++ rest) := by
  induction rest generalizing front with
  | nil => simp [sweep]
  | cons t rest ih =>
      rw [sweep]
      split
      · simpa using ih (front ++ [t])
      · exact ((ih front).cons t).trans List.perm_middle.symm

theorem sweep_sublist (front rest : List ι) :
    (sweep refList front rest).2.Sublist (front ++ rest) := by
  induction rest generalizing front with
  | nil => simp [sweep]
  | cons t rest ih =>
      rw [sweep]
      split
      · simpa using ih (front ++ [t])
      · exact (ih front).trans ((List.sublist_cons_self t rest).append_left front)

/-- What is taken off depends only on what has been taken off before. -/
theorem sweep_ordered (front rest : List ι) : ∀ pre x post,
    (sweep refList front rest).1 = pre ++ x :: post →
      ∀ y ∈ front ++ rest, y ∈ refList x → y ≠ x → y ∈ pre := by
  induction rest generalizing front with
  | nil =>
      intro pre x post heq
      simp [sweep] at heq
  | cons t rest ih =>
      intro pre x post heq y hy href hne
      rw [sweep] at heq
      split at heq
      · exact ih (front ++ [t]) pre x post heq y (by simpa using hy) href hne
      · next hkeep =>
          rw [keep_iff] at hkeep
          cases pre with
          | nil =>
              obtain ⟨rfl, -⟩ := List.cons.inj heq
              exact absurd ⟨y, hy, hne, href⟩ hkeep
          | cons p pre =>
              obtain ⟨rfl, htail⟩ := List.cons.inj heq
              by_cases hyt : y = t
              · rw [hyt]
                exact List.mem_cons_self
              · have hy' : y ∈ front ++ rest := by
                  rw [List.mem_append, List.mem_cons] at hy
                  rw [List.mem_append]
                  exact hy.imp id fun hy => hy.resolve_left hyt
                exact List.mem_cons_of_mem _ (ih front pre x post htail y hy' href hne)

/-- A round that takes nothing off has found a dependency of each member. -/
theorem sweep_stuck (front rest : List ι) (h : (sweep refList front rest).1 = []) :
    ∀ x ∈ rest, ∃ y ∈ front ++ rest, y ≠ x ∧ y ∈ refList x := by
  induction rest generalizing front with
  | nil => simp
  | cons t rest ih =>
      intro x hx
      rw [sweep] at h
      split at h
      · next hkeep =>
          rcases List.mem_cons.1 hx with rfl | hx
          · exact keep_iff.1 hkeep
          · simpa using ih (front ++ [t]) h x hx
      · cases h

theorem peeled_sweeps (n : ℕ) (tdl : List ι) (hn : tdl.length ≤ n) :
    Peeled (fun x y => y ∈ refList x) tdl (sweeps refList n tdl).1 (sweeps refList n tdl).2 := by
  have hdone (h : (sweep refList [] tdl).1 = []) :
      Peeled (fun x y => y ∈ refList x) tdl [] tdl :=
    { perm := .refl _
      sublist := .refl _
      ordered := by simp
      stuck := sweep_stuck [] tdl h }
  induction n generalizing tdl with
  | zero =>
      rw [Nat.le_zero, List.length_eq_zero_iff] at hn
      subst hn
      exact hdone rfl
  | succ n ih =>
      rw [sweeps]
      split
      · next h => exact hdone h
      · next h =>
          have hperm := @sweep_perm _ _ refList [] tdl
          refine .append hperm (sweep_sublist [] tdl) (sweep_ordered [] tdl) (ih _ ?_ ?_)
          · have hlen := hperm.length_eq
            have hpos := List.length_pos_iff.2 h
            rw [List.length_append, List.nil_append] at hlen
            omega
          · intro h'
            exact
              { perm := .refl _
                sublist := .refl _
                ordered := by simp
                stuck := sweep_stuck [] _ h' }

theorem peeled (refList : ι → List ι) (tdl : List ι) :
    Peeled (fun x y => y ∈ refList x) tdl (removeAndSortIndependents refList tdl).1
      (removeAndSortIndependents refList tdl).2 :=
  peeled_sweeps _ tdl le_rfl

end Sweep

/-! ### Reference lists -/

namespace AsnType

theorem mem_buildLocalRefLists {es : List (AsnType ι)} (h : ∀ e ∈ es, e.Plain) {y : ι} :
    y ∈ buildLocalRefLists es ↔ ∃ ref, .localTypeRef ref ∈ partsOfAll es ∧ ref.link = y := by
  induction es with
  | nil => simp [buildLocalRefLists, partsOfAll]
  | cons e es ih =>
      have ih := ih fun e he => h e (List.mem_cons_of_mem _ he)
      have he := h e List.mem_cons_self
      simp only [buildLocalRefLists, partsOfAll, List.mem_append, ih]
      cases e <;> simp_all [Plain, buildLocalRefList, parts]
      grind

theorem mem_buildWeightedLocalRefLists {es : List (AsnType ι)} (h : ∀ e ∈ es, e.Plain) {y : ι} :
    y ∈ buildWeightedLocalRefLists es ↔
      ∃ ref, .localTypeRef ref ∈ partsOfAll es ∧ ref.link = y ∧ ref.isValue = true := by
  induction es with
  | nil => simp [buildWeightedLocalRefLists, partsOfAll]
  | cons e es ih =>
      have ih := ih fun e he => h e (List.mem_cons_of_mem _ he)
      have he := h e List.mem_cons_self
      simp only [buildWeightedLocalRefLists, partsOfAll, List.mem_append, ih]
      cases e <;> simp_all [Plain, buildWeightedLocalRefList, parts]
      grind

theorem mem_buildLocalRefList {t : AsnType ι} (h : t.Normalised) {y : ι} :
    y ∈ t.buildLocalRefList ↔ ∃ ref, .localTypeRef ref ∈ t.parts ∧ ref.link = y := by
  have hplain {e : AsnType ι} (he : e.Plain) :
      y ∈ e.buildLocalRefList ↔ ∃ ref, .localTypeRef ref ∈ e.parts ∧ ref.link = y := by
    simpa [buildLocalRefLists, partsOfAll] using
      @mem_buildLocalRefLists _ [e] (by simpa using he) y
  cases t with
  | choice elmts => exact mem_buildLocalRefLists h
  | set elmts => exact mem_buildLocalRefLists h
  | sequence elmts => exact mem_buildLocalRefLists h
  | objectClass classdef => exact mem_buildLocalRefLists h
  | setOf c elmt => exact @hplain elmt h
  | sequenceOf c elmt => exact @hplain elmt h
  | library => exact hplain trivial
  | localTypeRef ref => exact hplain trivial
  | importTypeRef ref => exact hplain trivial
  | other => exact hplain trivial

/-- The weighted references of a type that is neither an object class nor a list with a C
type info. -/
theorem mem_buildWeightedLocalRefList {t : AsnType ι} (h : t.Normalised)
    (hclass : t.isObjectClass = false)
    (hlist : ∀ c elmt, t = .setOf c elmt ∨ t = .sequenceOf c elmt → c = false) {y : ι} :
    y ∈ t.buildWeightedLocalRefList ↔
      ∃ ref, .localTypeRef ref ∈ t.parts ∧ ref.link = y ∧ ref.isValue = true := by
  have hplain {e : AsnType ι} (he : e.Plain) : y ∈ e.buildWeightedLocalRefList ↔
      ∃ ref, .localTypeRef ref ∈ e.parts ∧ ref.link = y ∧ ref.isValue = true := by
    simpa [buildWeightedLocalRefLists, partsOfAll] using
      @mem_buildWeightedLocalRefLists _ [e] (by simpa using he) y
  cases t with
  | choice elmts => exact mem_buildWeightedLocalRefLists h
  | set elmts => exact mem_buildWeightedLocalRefLists h
  | sequence elmts => exact mem_buildWeightedLocalRefLists h
  | objectClass classdef => cases hclass
  | setOf c elmt =>
      rw [hlist c elmt (.inl rfl)]
      exact @hplain elmt h
  | sequenceOf c elmt =>
      rw [hlist c elmt (.inr rfl)]
      exact @hplain elmt h
  | library => exact hplain trivial
  | localTypeRef ref => exact hplain trivial
  | importTypeRef ref => exact hplain trivial
  | other => exact hplain trivial

/-- A list refers to one type at most. -/
theorem part_eq_of_isList {t a b : AsnType ι} (h : t.Normalised) (hlist : t.isList = true)
    (ha : a ∈ t.parts) (hb : b ∈ t.parts) : a = b := by
  have hplain {e : AsnType ι} (he : e.Plain) (ha : a ∈ e.parts) (hb : b ∈ e.parts) : a = b := by
    cases e <;> simp_all [Plain, parts]
  cases t with
  | setOf c elmt => exact hplain h ha hb
  | sequenceOf c elmt => exact hplain h ha hb
  | _ => cases hlist

end AsnType

namespace SortInput

variable (m : SortInput ι)

theorem mem_localRefList {x : ι} (hx : x ∈ m.typeDefs) {y : ι} :
    y ∈ localRefList m.typeDef x ↔ LocalRef m.typeDef x y :=
  AsnType.mem_buildLocalRefList (m.normalised x hx)

theorem not_isObjectClass {x : ι} (hx : x ∈ m.typeDefs) (h : (m.typeDef x).recursive = true) :
    (m.typeDef x).type.isObjectClass = false := by
  obtain ⟨w, hfollows, -⟩ := TransGen.head'_iff.1 ((m.marked x hx).1 h)
  exact hfollows.1

theorem mem_weightedRefList {x : ι} (hx : x ∈ m.typeDefs) (h : m.Weighted x) {y : ι} :
    y ∈ weightedRefList m.typeDef x ↔ ByValue m.typeDef x y := by
  apply AsnType.mem_buildWeightedLocalRefList (m.normalised x hx) (m.not_isObjectClass hx h.1)
  intro c elmt heq
  apply m.filled x hx _ c elmt heq
  have hlist : (m.typeDef x).type.isList = true := by
    rcases heq with heq | heq <;> rw [heq] <;> rfl
  simpa [isCList, hlist] using h.2

theorem LocalRef.dependsOn {typeDef : ι → TypeDef ι} {x y : ι} (h : LocalRef typeDef x y) :
    DependsOn typeDef x y := .single (.inl h)

theorem localRef_of_byValue {typeDef : ι → TypeDef ι} {x y : ι} (h : ByValue typeDef x y) :
    LocalRef typeDef x y := by
  obtain ⟨ref, hmem, hlink, -⟩ := h
  exact ⟨ref, hmem, hlink⟩

/-- What a recursive list contains depends on the list. -/
theorem dependsOn_of_isCList {x y : ι} (hx : x ∈ m.typeDefs)
    (hrec : (m.typeDef x).recursive = true) (hlist : isCList m.typeDef x = true)
    (hxy : LocalRef m.typeDef x y) (hne : y ≠ x) : DependsOn m.typeDef y x := by
  have hislist : (m.typeDef x).type.isList = true := by
    rw [isCList, Bool.and_eq_true] at hlist
    exact hlist.2
  obtain ⟨w, hfollows, hwx⟩ := TransGen.head'_iff.1 ((m.marked x hx).1 hrec)
  obtain ⟨ref, hmem, hlink⟩ := hxy
  have hw : w = y := by
    rcases hfollows.2 with ⟨ref', hmem', hlink'⟩ | ⟨ref', hmem', -⟩
    · have heq := AsnType.part_eq_of_isList (m.normalised x hx) hislist hmem hmem'
      rw [← hlink, ← hlink', AsnType.localTypeRef.inj heq]
    · cases AsnType.part_eq_of_isList (m.normalised x hx) hislist hmem hmem'
  subst hw
  have hback := (reflTransGen_iff_eq_or_transGen.1 hwx).resolve_left (Ne.symm hne)
  exact TransGen.mono (fun _ _ hstep => hstep.2) _ _ hback

/-! ### Groups -/

theorem mem_group {typeDef : ι → TypeDef ι} {g : Group} {l : List ι} {x : ι} :
    x ∈ group typeDef g l ↔ x ∈ l ∧ groupOf typeDef x = g := by
  simp [group]

theorem groupOf_of_localRef {x y : ι} (hx : x ∈ m.typeDefs) (hxy : LocalRef m.typeDef x y) :
    groupOf m.typeDef x = if (m.typeDef x).localRefCount = 0 then .notRefd else .refs := by
  have hmem := (m.mem_localRefList hx).2 hxy
  have hlib : (m.typeDef x).type.isDefinedByLibraryType = false := by
    rw [localRefList] at hmem
    cases ht : (m.typeDef x).type with
    | library =>
        rw [ht] at hmem
        cases hmem
    | _ => rfl
  rw [groupOf, if_neg (by simp [hlib]), if_neg (List.ne_nil_of_mem hmem)]

/-- The definitions whose order matters. -/
def refs : List ι := group m.typeDef .refs m.typeDefs

theorem mem_refs_of_localRef {x y : ι} (hx : x ∈ m.typeDefs) (hxy : LocalRef m.typeDef x y)
    (hcount : (m.typeDef x).localRefCount ≠ 0) : x ∈ m.refs := by
  rw [refs, mem_group, m.groupOf_of_localRef hx hxy, if_neg hcount]
  exact ⟨hx, rfl⟩

theorem refs_sublist : m.refs.Sublist m.typeDefs := List.filter_sublist

theorem nodup_refs : m.refs.Nodup := m.refs_sublist.nodup m.nodup

variable [DecidableEq ι]

/-- What the first rounds leave. -/
def rest : List ι := (removeAndSortIndependents (localRefList m.typeDef) m.refs).2

theorem mem_rest_iff {x : ι} : x ∈ m.rest ↔ m.Knotted x := by
  have hsub {y : ι} (hy : y ∈ m.refs) : y ∈ m.typeDefs := m.refs_sublist.subset hy
  rw [rest, (peeled _ _).mem_left_iff m.nodup_refs]
  constructor
  · rintro ⟨hx, hknot⟩
    have hgroup := (mem_group.1 hx).2
    refine ⟨hsub hx, ?_, hknot.mono ?_⟩
    · intro hcount
      rw [groupOf, hcount] at hgroup
      split at hgroup <;> simp at hgroup
    · intro a b hab
      exact (m.mem_localRefList (hsub hab.2.1)).1 hab.1
  · rintro ⟨hx, hcount, hknot⟩
    obtain ⟨y, hxy⟩ := hknot.exists_step
    have hmem := m.mem_refs_of_localRef hx hxy hcount
    refine ⟨hmem, (hknot.among ?_ hmem).mono ?_⟩
    · intro a ha b hab hb
      obtain ⟨hb', hbcount⟩ := m.linked a (hsub ha) b hab
      obtain ⟨c, hbc⟩ := hb.exists_step
      exact m.mem_refs_of_localRef hb' hbc hbcount
    · intro a b hab
      exact ⟨(m.mem_localRefList (hsub hab.2.1)).2 hab.1, hab.2⟩

/-- What is left when a part of the rest is sorted by other references. -/
theorem mem_left_part_iff {R : ι → ι → Prop} (hR : ∀ a b, R a b → LocalRef m.typeDef a b)
    {p : ι → Prop} {l : List ι} (hl : ∀ x, x ∈ l ↔ m.Knotted x ∧ p x) (hnodup : l.Nodup)
    {refList : ι → List ι} (href : ∀ x ∈ l, ∀ y, y ∈ refList x ↔ R x y) {x : ι} :
    x ∈ (removeAndSortIndependents refList l).2 ↔ x ∈ l ∧ LeadsToKnot (Within R p) x := by
  rw [(peeled _ _).mem_left_iff hnodup]
  constructor
  · rintro ⟨hx, hknot⟩
    refine ⟨hx, hknot.mono ?_⟩
    intro a b hab
    exact ⟨(href a hab.2.1 b).1 hab.1, ((hl a).1 hab.2.1).2, ((hl b).1 hab.2.2).2⟩
  · rintro ⟨hx, hknot⟩
    refine ⟨hx, (hknot.among ?_ hx).mono ?_⟩
    · intro a ha b hab hb
      obtain ⟨hbmem, hbcount⟩ := m.linked a ((hl a).1 ha).1.1 b (hR a b hab.1)
      refine (hl b).2 ⟨⟨hbmem, hbcount, hb.mono ?_⟩, hab.2.2⟩
      exact fun a b hab => hR a b hab.1
    · intro a b hab
      exact ⟨(href a hab.2.1 b).2 hab.1.1, hab.2⟩

end SortInput

end Esnacc.Compiler.Dependency
