import Esnacc.Compiler.SortOrder

/-!
When the order of the type definitions is the one that is wanted. No definition is lost or
duplicated in any module; what can be wrong is the place of definitions that lead to a knot.
-/

namespace Esnacc.Compiler.Dependency.SortInput

open Relation Precedence

variable {ι : Type} [DecidableEq ι] (m : SortInput ι)

/-! ### The parts of the list -/

def first : List ι := (removeAndSortIndependents (localRefList m.typeDef) m.refs).1

def nonRecs : List ι := m.rest.filter fun td => !(m.typeDef td).recursive

def recs : List ι := m.rest.filter fun td => (m.typeDef td).recursive

def cLists : List ι := m.recs.filter fun td => isCList m.typeDef td

def generic : List ι := m.recs.filter fun td => !isCList m.typeDef td

/-- The recursive definitions as they are put out. -/
def recPart : List ι :=
  m.cLists ++ ((removeAndSortIndependents (weightedRefList m.typeDef) m.generic).1 ++
    (removeAndSortIndependents (weightedRefList m.typeDef) m.generic).2)

/-- The others that lead to a knot. -/
def nonRecPart : List ι :=
  (removeAndSortIndependents (localRefList m.typeDef) m.nonRecs).1 ++
    (removeAndSortIndependents (localRefList m.typeDef) m.nonRecs).2

def order : List ι :=
  group m.typeDef .prims m.typeDefs ++ (group m.typeDef .noRefs m.typeDefs ++
    ((m.first ++ (m.recPart ++ m.nonRecPart)) ++ group m.typeDef .notRefd m.typeDefs))

theorem sortTypeDependencies_eq : sortTypeDependencies m.typeDef m.typeDefs =
    if m.rest ≠ [] ∧ m.recs = [] then none else some m.order := by
  have hrest : (removeAndSortIndependents (localRefList m.typeDef) m.refs).2 = m.rest := rfl
  have hfirst : (removeAndSortIndependents (localRefList m.typeDef) m.refs).1 = m.first := rfl
  rw [sortTypeDependencies, sortTypeDefs]
  change Option.map _ (if m.rest = [] then some m.first else _) = _
  by_cases hnil : m.rest = []
  · have hparts : m.recPart = [] ∧ m.nonRecPart = [] := by
      simp [recPart, nonRecPart, cLists, generic, recs, nonRecs, hnil, removeAndSortIndependents,
        sweeps]
    rw [if_pos hnil, if_neg (by simp [hnil])]
    simp [order, hparts]
  · rw [if_neg hnil]
    by_cases hrecs : m.recs = []
    · rw [if_pos ⟨hnil, hrecs⟩]
      change Option.map _ (if m.recs = [] then none else _) = _
      rw [if_pos hrecs]
      rfl
    · rw [if_neg (fun h => hrecs h.2)]
      change Option.map _ (if m.recs = [] then none else _) = _
      rw [if_neg hrecs]
      simp only [Option.map_some, order, recPart, nonRecPart, List.append_assoc]
      rfl

theorem recPart_perm : m.recPart.Perm m.recs :=
  ((peeled _ _).perm.append_left _).trans (List.filter_append_perm _ _)

theorem nonRecPart_perm : m.nonRecPart.Perm m.nonRecs := (peeled _ _).perm

theorem first_append_perm : (m.first ++ (m.recPart ++ m.nonRecPart)).Perm m.refs := by
  have hrest : (m.recPart ++ m.nonRecPart).Perm m.rest :=
    (m.recPart_perm.append m.nonRecPart_perm).trans (List.filter_append_perm _ _)
  exact (hrest.append_left m.first).trans (peeled _ _).perm

/-- Nothing is lost and nothing duplicated. -/
theorem order_perm : m.order.Perm m.typeDefs := by
  rw [List.perm_iff_count]
  intro a
  have hrefs := m.first_append_perm.count_eq a
  simp only [order, List.count_append] at hrefs ⊢
  rw [hrefs, refs]
  have hgroup (g : Group) : (group m.typeDef g m.typeDefs).count a =
      if groupOf m.typeDef a = g then m.typeDefs.count a else 0 := by
    split
    · next h => exact List.count_filter (by simpa using h)
    · next h =>
        rw [List.count_eq_zero]
        exact fun hmem => h (mem_group.1 hmem).2
  simp only [hgroup]
  cases groupOf m.typeDef a <;> simp

theorem nodup_order : m.order.Nodup := m.order_perm.nodup_iff.2 m.nodup

/-! ### Places -/

theorem mem_recs {x : ι} : x ∈ m.recs ↔ m.Knotted x ∧ (m.typeDef x).recursive = true := by
  simp [recs, mem_rest_iff]

theorem mem_nonRecs {x : ι} : x ∈ m.nonRecs ↔ m.Knotted x ∧ m.NonRec x := by
  simp [nonRecs, mem_rest_iff, NonRec]

theorem mem_generic {x : ι} : x ∈ m.generic ↔ m.Knotted x ∧ m.Weighted x := by
  simp [generic, mem_recs, Weighted, and_assoc]

theorem sorted_sublist_order : (m.first ++ (m.recPart ++ m.nonRecPart)).Sublist m.order :=
  ((List.sublist_append_left _ _).trans (List.sublist_append_right _ _)).trans
    (List.sublist_append_right _ _)

theorem knotted_sublist_order : (m.recPart ++ m.nonRecPart).Sublist m.order :=
  (List.sublist_append_right _ _).trans m.sorted_sublist_order

theorem generic_sublist : m.generic.Sublist m.typeDefs :=
  List.filter_sublist.trans (List.filter_sublist.trans
    ((peeled _ _).sublist.trans m.refs_sublist))

theorem nonRecs_sublist : m.nonRecs.Sublist m.typeDefs :=
  List.filter_sublist.trans ((peeled _ _).sublist.trans m.refs_sublist)

theorem mem_recPart {x : ι} :
    x ∈ m.recPart ↔ m.Knotted x ∧ (m.typeDef x).recursive = true := by
  rw [m.recPart_perm.mem_iff, mem_recs]

theorem mem_nonRecPart {x : ι} : x ∈ m.nonRecPart ↔ m.Knotted x ∧ m.NonRec x := by
  rw [m.nonRecPart_perm.mem_iff, mem_nonRecs]

/-- The recursive definitions come first. -/
theorem before_order_of_recursive {x y : ι} (hx : m.Knotted x) (hy : m.Knotted y)
    (hxrec : m.NonRec x) (hyrec : (m.typeDef y).recursive = true) : Before m.order y x :=
  (before_append (m.mem_recPart.2 ⟨hy, hyrec⟩) (m.mem_nonRecPart.2 ⟨hx, hxrec⟩)).mono
    m.knotted_sublist_order

/-- Of definitions that are not recursive only those stay where they are that lead to a
knot. -/
theorem before_order_nonRec_iff {x y : ι} (hx : m.Knotted x) (hy : m.Knotted y)
    (hxrec : m.NonRec x) (hyrec : m.NonRec y) (hxy : LocalRef m.typeDef x y) (hne : y ≠ x) :
    Before m.order y x ↔ (LeadsToKnot (Within (LocalRef m.typeDef) m.NonRec) y →
      Before m.typeDefs y x) := by
  have hnodup := m.nonRecs_sublist.nodup m.nodup
  have hx' := m.mem_nonRecs.2 ⟨hx, hxrec⟩
  have hy' := m.mem_nonRecs.2 ⟨hy, hyrec⟩
  have hsub : m.nonRecPart.Sublist m.order :=
    (List.sublist_append_right _ _).trans m.knotted_sublist_order
  have hleft := m.mem_left_part_iff (fun _ _ h => h) (fun _ => m.mem_nonRecs) hnodup
    (fun z hz w => @mem_localRefList _ m z (m.mem_nonRecs.1 hz).1.1 w) (x := y)
  rw [← before_iff_of_sublist hsub m.nodup_order (m.mem_nonRecPart.2 ⟨hy, hyrec⟩)
      (m.mem_nonRecPart.2 ⟨hx, hxrec⟩) hne, nonRecPart,
    (peeled _ _).before_append_iff hnodup hx' hy' ((m.mem_localRefList hx.1).2 hxy) hne, hleft,
    before_iff_of_sublist m.nonRecs_sublist m.nodup hy' hx' hne]
  simp [hy']

/-- The same for recursive definitions and the references by value. -/
theorem before_order_weighted_iff {x y : ι} (hx : m.Knotted x) (hy : m.Knotted y)
    (hxw : m.Weighted x) (hyw : m.Weighted y) (hxy : ByValue m.typeDef x y) (hne : y ≠ x) :
    Before m.order y x ↔ (LeadsToKnot (Within (ByValue m.typeDef) m.Weighted) y →
      Before m.typeDefs y x) := by
  have hnodup := m.generic_sublist.nodup m.nodup
  have hx' := m.mem_generic.2 ⟨hx, hxw⟩
  have hy' := m.mem_generic.2 ⟨hy, hyw⟩
  have hsub : ((removeAndSortIndependents (weightedRefList m.typeDef) m.generic).1 ++
      (removeAndSortIndependents (weightedRefList m.typeDef) m.generic).2).Sublist m.order :=
    ((List.sublist_append_right _ _).trans (List.sublist_append_left _ _)).trans
      m.knotted_sublist_order
  have hpart {z : ι} (hz : z ∈ m.generic) := (peeled (weightedRefList m.typeDef)
    m.generic).perm.mem_iff.2 hz
  have hleft := m.mem_left_part_iff (fun _ _ => localRef_of_byValue) (fun _ => m.mem_generic)
    hnodup (fun z hz w => @mem_weightedRefList _ m z (m.mem_generic.1 hz).1.1
      (m.mem_generic.1 hz).2 w) (x := y)
  rw [← before_iff_of_sublist hsub m.nodup_order (hpart hy') (hpart hx') hne,
    (peeled _ _).before_append_iff hnodup hx' hy' ((m.mem_weightedRefList hx.1 hxw).2 hxy) hne,
    hleft, before_iff_of_sublist m.generic_sublist m.nodup hy' hx' hne]
  simp [hy']

/-- A list that is generated for C comes before the other recursive definitions. -/
theorem before_order_cList {x y : ι} (hx : m.Knotted x) (hy : m.Knotted y)
    (hxw : m.Weighted x) (hyrec : (m.typeDef y).recursive = true)
    (hylist : isCList m.typeDef y = true) : Before m.order y x := by
  have hy' : y ∈ m.cLists := by simp [cLists, mem_recs, hy, hyrec, hylist]
  have hx' := (peeled (weightedRefList m.typeDef) m.generic).perm.mem_iff.2
    (m.mem_generic.2 ⟨hx, hxw⟩)
  exact (before_append hy' hx').mono
    ((List.sublist_append_left _ _).trans m.knotted_sublist_order)

omit [DecidableEq ι] in
theorem groupOf_ne_notRefd {y : ι} (hcount : (m.typeDef y).localRefCount ≠ 0) :
    groupOf m.typeDef y ≠ .notRefd := by
  rw [groupOf, if_neg hcount]
  split
  · simp
  · split <;> simp

/-- What is referred to nowhere comes last. -/
theorem before_order_of_notRefd {x y : ι} (hx : x ∈ group m.typeDef .notRefd m.typeDefs)
    (hy : y ∈ m.typeDefs) (hcount : (m.typeDef y).localRefCount ≠ 0) : Before m.order y x := by
  have hassoc : m.order = (group m.typeDef .prims m.typeDefs ++
      (group m.typeDef .noRefs m.typeDefs ++ (m.first ++ (m.recPart ++ m.nonRecPart)))) ++
        group m.typeDef .notRefd m.typeDefs := by
    simp [order]
  have hmem := m.order_perm.mem_iff.2 hy
  rw [hassoc, List.mem_append] at hmem
  have hynot : y ∉ group m.typeDef .notRefd m.typeDefs :=
    fun hnot => m.groupOf_ne_notRefd hcount (mem_group.1 hnot).2
  exact hassoc ▸ before_append (hmem.resolve_right hynot) hx

/-- Library types and types without references come first. -/
theorem before_order_of_not_refs {x y : ι} (hx : x ∈ m.refs) (hy : y ∈ m.typeDefs)
    (hgroup : groupOf m.typeDef y = .prims ∨ groupOf m.typeDef y = .noRefs) :
    Before m.order y x := by
  have hxtail : x ∈ (m.first ++ (m.recPart ++ m.nonRecPart)) ++
      group m.typeDef .notRefd m.typeDefs :=
    List.mem_append_left _ (m.first_append_perm.mem_iff.2 hx)
  rcases hgroup with hgroup | hgroup
  · exact before_append (mem_group.2 ⟨hy, hgroup⟩) (List.mem_append_right _ hxtail)
  · exact (before_append (mem_group.2 ⟨hy, hgroup⟩) hxtail).append_left _

/-- What can be sorted comes before what contains it. -/
theorem before_order_of_not_rest {x y : ι} (hx : x ∈ m.refs) (hy : y ∈ m.refs)
    (hxy : LocalRef m.typeDef x y) (hne : y ≠ x) (hyrest : y ∉ m.rest) : Before m.order y x := by
  have hpeeled := peeled (localRefList m.typeDef) m.refs
  have hxy' := (m.mem_localRefList (mem_group.1 hx).1).2 hxy
  refine Before.mono ?_ m.sorted_sublist_order
  rcases hpeeled.mem_iff.1 hx with hxfirst | hxrest
  · exact (hpeeled.before hxfirst hy hxy' hne).append_right _
  · refine before_append ((hpeeled.mem_iff.1 hy).resolve_right hyrest) ?_
    rcases hr : (m.typeDef x).recursive with _ | _
    · exact List.mem_append_right _ (m.mem_nonRecPart.2 ⟨m.mem_rest_iff.1 hxrest, hr⟩)
    · exact List.mem_append_left _ (m.mem_recPart.2 ⟨m.mem_rest_iff.1 hxrest, hr⟩)

/-- What leads to a knot is the only thing that can stand before what it contains. -/
theorem before_order_or_knotted {x y : ι} (hx : x ∈ m.typeDefs)
    (hxy : LocalRef m.typeDef x y) (hne : y ≠ x) :
    Before m.order y x ∨ m.Knotted x ∧ m.Knotted y := by
  obtain ⟨hy, hcount⟩ := m.linked x hx y hxy
  have hgroup := m.groupOf_of_localRef hx hxy
  by_cases hxcount : (m.typeDef x).localRefCount = 0
  · rw [if_pos hxcount] at hgroup
    exact .inl (m.before_order_of_notRefd (mem_group.2 ⟨hx, hgroup⟩) hy hcount)
  · rw [if_neg hxcount] at hgroup
    have hx' : x ∈ m.refs := mem_group.2 ⟨hx, hgroup⟩
    cases hygroup : groupOf m.typeDef y with
    | prims => exact .inl (m.before_order_of_not_refs hx' hy (.inl hygroup))
    | noRefs => exact .inl (m.before_order_of_not_refs hx' hy (.inr hygroup))
    | notRefd => exact absurd hygroup (m.groupOf_ne_notRefd hcount)
    | refs =>
        have hy' : y ∈ m.refs := mem_group.2 ⟨hy, hygroup⟩
        by_cases hyrest : y ∈ m.rest
        · have hyknot := m.mem_rest_iff.1 hyrest
          exact .inr ⟨⟨hx, hxcount, hyknot.2.2.head hxy⟩, hyknot⟩
        · exact .inl (m.before_order_of_not_rest hx' hy' hxy hne hyrest)

/-! ### The order -/

omit [DecidableEq ι] in
theorem ne_of_not_dependsOn {x y : ι} (hxy : LocalRef m.typeDef x y)
    (hdep : ¬ DependsOn m.typeDef y x) : y ≠ x := by
  rintro rfl
  exact hdep (LocalRef.dependsOn hxy)

theorem sortable_of_sorted (hmarks : ¬ (m.rest ≠ [] ∧ m.recs = []))
    (h : m.Sorted m.order) : m.Sortable where
  marks := by
    rintro ⟨x, hx⟩
    have hrest : m.rest ≠ [] := List.ne_nil_of_mem (m.mem_rest_iff.2 hx)
    obtain ⟨z, hz⟩ := List.exists_mem_of_ne_nil _ fun hnil => hmarks ⟨hrest, hnil⟩
    exact ⟨z, m.mem_recs.1 hz⟩
  recursive := by
    intro x y hx hy hxy hdep hxrec hyrec
    have hplaced := h x hx.1 y hy.1 (.inl hxy) hdep
    have hwrong : Before m.order x y := m.before_order_of_recursive hy hx hyrec hxrec
    exact hplaced.asymm m.nodup_order hwrong
  weighted := by
    intro x y hx hy hxy hdep hxw hyw
    have hne := m.ne_of_not_dependsOn (localRef_of_byValue hxy) hdep
    exact (m.before_order_weighted_iff hx hy hxw hyw hxy hne).1 (h x hx.1 y hy.1 (.inl hxy) hdep)
  nonRec := by
    intro x y hx hy hxy hdep hxn hyn
    have hne := m.ne_of_not_dependsOn hxy hdep
    exact (m.before_order_nonRec_iff hx hy hxn hyn hxy hne).1
      (h x hx.1 y hy.1 (.inr ⟨hxy, hxn, hyn⟩) hdep)

theorem sorted_of_sortable (h : m.Sortable) : m.Sorted m.order := by
  intro x hx y _ hcontains hdep
  have hxy : LocalRef m.typeDef x y := hcontains.elim localRef_of_byValue And.left
  have hne := m.ne_of_not_dependsOn hxy hdep
  rcases m.before_order_or_knotted hx hxy hne with hbefore | ⟨hxk, hyk⟩
  · exact hbefore
  cases hxr : (m.typeDef x).recursive with
  | false =>
      cases hyr : (m.typeDef y).recursive with
      | false =>
          exact (m.before_order_nonRec_iff hxk hyk hxr hyr hxy hne).2
            (h.nonRec x y hxk hyk hxy hdep hxr hyr)
      | true => exact m.before_order_of_recursive hxk hyk hxr hyr
  | true =>
      have hvalue : ByValue m.typeDef x y := by
        refine hcontains.resolve_right fun hno => ?_
        rw [hxr] at hno
        cases hno.2.1
      -- a list contains nothing that does not depend on it
      have hxw : m.Weighted x := by
        refine ⟨hxr, ?_⟩
        by_contra hlist
        rw [Bool.not_eq_false] at hlist
        exact hdep (m.dependsOn_of_isCList hx hxr hlist hxy hne)
      cases hyr : (m.typeDef y).recursive with
      | false => exact absurd hyr (h.recursive x y hxk hyk hvalue hdep hxr)
      | true =>
          cases hylist : isCList m.typeDef y with
          | true => exact m.before_order_cList hxk hyk hxw hyr hylist
          | false =>
              exact (m.before_order_weighted_iff hxk hyk hxw ⟨hyr, hylist⟩ hvalue hne).2
                (h.weighted x y hxk hyk hvalue hdep hxw ⟨hyr, hylist⟩)

/-- The order comes out as it is wanted exactly where nothing stands in its way. -/
theorem sortsTypes_iff : m.SortsTypes ↔ m.Sortable := by
  constructor
  · rintro ⟨l, hsort, -, hsorted⟩
    rw [sortTypeDependencies_eq] at hsort
    split at hsort
    · cases hsort
    · next hmarks =>
        cases hsort
        exact m.sortable_of_sorted hmarks hsorted
  · intro h
    have hmarks : ¬ (m.rest ≠ [] ∧ m.recs = []) := by
      rintro ⟨hrest, hrecs⟩
      obtain ⟨x, hx⟩ := List.exists_mem_of_ne_nil _ hrest
      obtain ⟨z, hz⟩ := h.marks ⟨x, m.mem_rest_iff.1 hx⟩
      exact List.ne_nil_of_mem (m.mem_recs.2 hz) hrecs
    refine ⟨m.order, ?_, m.order_perm, m.sorted_of_sortable h⟩
    rw [sortTypeDependencies_eq, if_neg hmarks]

/-! ### A recursive type that contains one that is not -/

/-- `X ::= SEQUENCE { self X OPTIONAL, y Y }`, `Y ::= SEQUENCE { z Z OPTIONAL }`,
`Z ::= SEQUENCE { w W OPTIONAL }` and `W ::= SEQUENCE { z Z OPTIONAL }`, for C++. -/
def nestedTypeDef (x : Fin 4) : TypeDef (Fin 4) :=
  let ref (link : Fin 4) (isPtr : Bool) : AsnType (Fin 4) := .localTypeRef ⟨link, none, some isPtr⟩
  match x with
  | 0 => ⟨.sequence [ref 0 true, ref 1 false], 1, true, false⟩
  | 1 => ⟨.sequence [ref 2 true], 1, false, false⟩
  | 2 => ⟨.sequence [ref 3 true], 2, true, false⟩
  | 3 => ⟨.sequence [ref 2 true], 1, true, false⟩

theorem nested_localRef_iff (x y : Fin 4) : LocalRef nestedTypeDef x y ↔
    (x, y) ∈ [((0 : Fin 4), (0 : Fin 4)), (0, 1), (1, 2), (2, 3), (3, 2)] := by
  fin_cases x <;> simp [LocalRef, nestedTypeDef, AsnType.parts, AsnType.partsOfAll] <;> grind

theorem nested_refers_iff (x y : Fin 4) :
    Refers nestedTypeDef x y ↔ LocalRef nestedTypeDef x y := by
  fin_cases x <;> simp [Refers, nestedTypeDef, AsnType.parts, AsnType.partsOfAll]

theorem nested_follows_iff (x y : Fin 4) :
    Follows nestedTypeDef x y ↔ LocalRef nestedTypeDef x y := by
  rw [Follows, nested_refers_iff, and_iff_right]
  fin_cases x <;> rfl

/-- From `Y` on only `Z` and `W` are met. -/
theorem nested_reaches {x y : Fin 4} (h : TransGen (LocalRef nestedTypeDef) x y) (hx : x ≠ 0) :
    y = 2 ∨ y = 3 := by
  induction h with
  | @single y hxy =>
      rw [nested_localRef_iff] at hxy
      revert x y
      decide
  | @tail y z hxy hyz ih =>
      rw [nested_localRef_iff] at hyz
      clear hxy
      revert y z
      decide

/-- The four definitions, in the order they are written. -/
def nested : SortInput (Fin 4) where
  typeDef := nestedTypeDef
  typeDefs := [0, 1, 2, 3]
  nodup := by decide
  linked := by
    intro x _ y hxy
    rw [nested_localRef_iff] at hxy
    revert x y
    decide
  normalised := by
    intro x _
    fin_cases x <;> simp [nestedTypeDef, AsnType.Normalised, AsnType.Plain]
  marked := by
    intro x _
    have hlink {x y : Fin 4} (h : (x, y) ∈ [((0 : Fin 4), (0 : Fin 4)), (0, 1), (1, 2), (2, 3),
        (3, 2)]) : TransGen (Follows nestedTypeDef) x y :=
      .single ((nested_follows_iff x y).2 ((nested_localRef_iff x y).2 h))
    fin_cases x
    · exact iff_of_true rfl (hlink (by decide))
    · refine iff_of_false (by decide) fun h => ?_
      have h' := TransGen.mono (fun x y => (nested_follows_iff x y).1) _ _ h
      exact absurd (nested_reaches h' (by decide)) (by decide)
    · exact iff_of_true rfl ((hlink (y := 3) (by decide)).trans (hlink (by decide)))
    · exact iff_of_true rfl ((hlink (y := 2) (by decide)).trans (hlink (by decide)))
  filled := by
    intro x _ _ c elmt heq
    fin_cases x <;> simp [nestedTypeDef] at heq

/-- `X` contains `Y` by value, and comes before it. -/
theorem not_sortsTypes : ¬ ∀ m : SortInput (Fin 4), m.SortsTypes := by
  intro h
  obtain ⟨l, hsort, -, hsorted⟩ := h nested
  have hl : l = [0, 2, 3, 1] := by
    have hrun : sortTypeDependencies nestedTypeDef [0, 1, 2, 3] = some [0, 2, 3, 1] := by decide
    exact Option.some.inj (hsort.symm.trans hrun)
  subst hl
  have hvalue : ByValue nestedTypeDef 0 1 :=
    ⟨⟨1, none, some false⟩, by simp [nestedTypeDef, AsnType.parts, AsnType.partsOfAll], rfl, rfl⟩
  have hdep : ¬ DependsOn nestedTypeDef 1 0 := by
    intro hdep
    have h' := TransGen.mono (fun x y => (nested_refers_iff x y).1) _ _ hdep
    exact absurd (nested_reaches h' (by decide)) (by decide)
  have hbefore := hsorted 0 (by decide) 1 (by decide) (.inl hvalue) hdep
  exact absurd hbefore (show ¬ [(1 : Fin 4), 0].Sublist [0, 2, 3, 1] by decide)

end Esnacc.Compiler.Dependency.SortInput
