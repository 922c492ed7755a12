import Esnacc.Compiler.ImportScope
import Esnacc.Compiler.ValuePlaces

/-!
When the linking of values is complete: the walk has to come to every reference, it has to come with
the named elements of its own type, and what is imported has to come from a module that is there.
-/

namespace Esnacc.Compiler.Values

theorem linkModule_eq (ms : List Module) (m : Module) :
    linkModule ms m = outcomes (linkValueRef ms m) m.places := by
  have hdef : ∀ v : ValueDef, outcomes (linkValueRef ms m) v.places =
      bif false then [] else valueLinkValueDef (linkValueRef ms m) v := by
    intro v
    rw [ValueDef.places, outcomes_append, outcomes_type, outcomes_value]
    rfl
  rw [Module.places, outcomes_append, outcomes_append, outcomes_oid,
    outcomes_flatMap _ (outcomes_type _ false), outcomes_flatMap _ hdef]
  rfl

theorem ref_linkValueRef (ms : List Module) (m : Module) (namedElmts : List NamedElmt)
    (r : ValueRef) : (linkValueRef ms m namedElmts r).ref = r := by
  unfold linkValueRef
  repeat' split
  all_goals rfl

theorem mem_linkModule_iff {ms : List Module} {m : Module} {o : Outcome} :
    o ∈ linkModule ms m ↔
      ∃ p ∈ m.places, p.skipped = false ∧ linkValueRef ms m p.searched p.ref = o := by
  rw [linkModule_eq, outcomes, List.mem_map]
  simp only [List.mem_filter, Bool.not_eq_true', and_assoc]

/-! ### Errors -/

theorem error_linkValueRef_iff {ms : List Module} {m : Module} {p : Place} :
    (linkValueRef ms m p.searched p.ref).error = true ↔ Undefined m p := by
  unfold linkValueRef Undefined
  cases hmodule : p.ref.moduleName with
  | none =>
      dsimp only
      cases hnamed : lookupNamedElmt p.searched p.ref.valueName with
      | some e => simp
      | none =>
          cases hlocal : lookupValue m.valueDefs p.ref.valueName with
          | some v => simp
          | none =>
              cases himport : lookupImportElmt p.ref.valueName m.imports with
              | none => simp
              | some r =>
                  obtain ⟨imp, e⟩ := r
                  cases hscope : e.privateScope <;> simp [hscope]
  | some moduleName =>
      dsimp only
      cases hlist : m.imports.find? fun imp => imp.modId.name = moduleName with
      | none => simp
      | some imp =>
          cases helmt : lookupImportElmtInImportElmtList imp.importElmts p.ref.valueName with
          | none => simp [helmt]
          | some e => simp [helmt]

theorem moduleFails_iff {ms : List Module} {m : Module} :
    moduleFails ms m = true ↔ m.failed = true ∨ valueLinkImportLists ms m = true ∨
      ∃ p ∈ m.places, p.skipped = false ∧ Undefined m p := by
  rw [moduleFails, Bool.or_eq_true, Bool.or_eq_true, or_assoc, List.any_eq_true]
  refine or_congr_right (or_congr_right ⟨?_, ?_⟩)
  · rintro ⟨o, ho, herror⟩
    obtain ⟨p, hp, hvisited, rfl⟩ := mem_linkModule_iff.mp ho
    exact ⟨p, hp, hvisited, error_linkValueRef_iff.mp herror⟩
  · rintro ⟨p, hp, hvisited, hundefined⟩
    exact ⟨_, mem_linkModule_iff.mpr ⟨p, hp, hvisited, rfl⟩, error_linkValueRef_iff.mpr hundefined⟩

theorem linkValueRefs_of_erroneous {ms : List Module} (h : Erroneous ms) :
    (linkValueRefs ms).1 = -1 := by
  obtain ⟨m, hm, hfails⟩ := h
  exact if_pos (List.any_eq_true.mpr ⟨m, hm, moduleFails_iff.mpr hfails⟩)

theorem linkValueRefs_of_not_erroneous {ms : List Module} (h : ¬ Erroneous ms) :
    (linkValueRefs ms).1 = 0 := by
  refine if_neg fun hany => h ?_
  obtain ⟨m, hm, hfails⟩ := List.any_eq_true.mp hany
  exact ⟨m, hm, moduleFails_iff.mp hfails⟩

/-! ### Links -/

/-- Every reference is an object of its own. -/
def DistinctRefs (ms : List Module) : Prop := ((ms.flatMap Module.places).map Place.ref).Nodup

theorem DistinctRefs.eq {ms : List Module} (h : DistinctRefs ms) {m m' : Module} (hm : m ∈ ms)
    (hm' : m' ∈ ms) {p q : Place} (hp : p ∈ m.places) (hq : q ∈ m'.places) (heq : p.ref = q.ref) :
    m = m' ∧ p = q := by
  -- a place together with its module, since the link depends on both
  let placed := ms.flatMap fun m => m.places.map fun p => (m, p)
  have hplaced : placed.map (fun x => x.2.ref) = (ms.flatMap Module.places).map Place.ref := by
    simp only [placed, List.map_flatMap, List.map_map, Function.comp_def]
  have hnodup : (placed.map fun x => x.2.ref).Nodup := by
    rw [hplaced]
    exact h
  have hmem : ∀ m ∈ ms, ∀ p ∈ m.places, (m, p) ∈ placed := fun m hm p hp =>
    List.mem_flatMap.mpr ⟨m, hm, List.mem_map.mpr ⟨p, hp, rfl⟩⟩
  have hpair := List.inj_on_of_nodup_map hnodup (hmem m hm p hp) (hmem m' hm' q hq) heq
  exact Prod.mk.inj hpair

theorem linkOf_linkValueRefs {ms : List Module} (h : DistinctRefs ms) {m : Module} (hm : m ∈ ms)
    {p : Place} (hp : p ∈ m.places) :
    linkOf (linkValueRefs ms).2 p.ref =
      if p.skipped then none else (linkValueRef ms m p.searched p.ref).link := by
  rw [linkOf]
  cases hfind : (linkValueRefs ms).2.find? fun o => o.ref = p.ref with
  | none =>
      cases hskipped : p.skipped with
      | true => rfl
      | false =>
          have hmem : linkValueRef ms m p.searched p.ref ∈ (linkValueRefs ms).2 :=
            List.mem_flatMap.mpr ⟨m, hm, mem_linkModule_iff.mpr ⟨p, hp, hskipped, rfl⟩⟩
          have hne := List.find?_eq_none.mp hfind _ hmem
          rw [ref_linkValueRef] at hne
          exact absurd (decide_eq_true rfl) hne
  | some o =>
      have href : o.ref = p.ref := by simpa using List.find?_some hfind
      obtain ⟨m', hm', ho⟩ := List.mem_flatMap.mp (List.mem_of_find?_eq_some hfind)
      obtain ⟨q, hq, hvisited, rfl⟩ := mem_linkModule_iff.mp ho
      rw [ref_linkValueRef] at href
      obtain ⟨rfl, rfl⟩ := h.eq hm' hm hq hp href
      rw [hvisited]
      rfl

/-! ### Imports -/

theorem mem_of_lookupImportElmt {n : Name} {imps : List ImportModule} {imp : ImportModule}
    {e : ImportElmt} (h : lookupImportElmt n imps = some (imp, e)) :
    imp ∈ imps ∧ lookupImportElmtInImportElmtList imp.importElmts n = some e := by
  induction imps with
  | nil => cases h
  | cons i imps ih =>
      rw [lookupImportElmt] at h
      cases hhead : lookupImportElmtInImportElmtList i.importElmts n with
      | none =>
          rw [hhead] at h
          obtain ⟨hmem, helmt⟩ := ih h
          exact ⟨List.mem_cons_of_mem _ hmem, helmt⟩
      | some e' =>
          rw [hhead] at h
          obtain ⟨rfl, rfl⟩ := Prod.mk.inj (Option.some.inj h)
          exact ⟨List.mem_cons_self, hhead⟩

/-- An element that is found first and is public is the first public one. -/
theorem lookupElmt_public {elmts : List ImportElmt} {n : Name} {e : ImportElmt}
    (h : lookupImportElmtInImportElmtList elmts n = some e) (hpublic : e.privateScope = false) :
    lookupImportElmtInImportElmtList (elmts.filter fun e => !e.privateScope) n = some e := by
  obtain ⟨hname, as, bs, rfl, has⟩ := List.find?_eq_some_iff_append.mp h
  refine List.find?_eq_some_iff_append.mpr ⟨hname, as.filter fun e => !e.privateScope,
    bs.filter fun e => !e.privateScope, ?_, fun a ha => has a (List.mem_of_mem_filter ha)⟩
  rw [List.filter_append, List.filter_cons_of_pos (by simp [hpublic])]

theorem lookupImportElmt_public {n : Name} {imps : List ImportModule} {imp : ImportModule}
    {e : ImportElmt} (h : lookupImportElmt n imps = some (imp, e))
    (hpublic : e.privateScope = false) :
    lookupImportElmt n (imps.map publicElmts) = some (publicElmts imp, e) := by
  induction imps with
  | nil => cases h
  | cons i imps ih =>
      rw [lookupImportElmt] at h
      rw [List.map_cons, lookupImportElmt, publicElmts]
      dsimp only
      cases hhead : lookupImportElmtInImportElmtList i.importElmts n with
      | none =>
          rw [hhead] at h
          have hnone : lookupImportElmtInImportElmtList
              (i.importElmts.filter fun e => !e.privateScope) n = none := by
            refine List.find?_eq_none.mpr fun a ha => ?_
            exact List.find?_eq_none.mp hhead a (List.mem_of_mem_filter ha)
          rw [hnone]
          exact ih h
      | some e' =>
          rw [hhead] at h
          obtain ⟨rfl, rfl⟩ := Prod.mk.inj (Option.some.inj h)
          rw [lookupElmt_public hhead hpublic]
          rfl

theorem value_of_resolvedRef {ms : List Module} {imp : ImportModule} {n : Name} {t : Target}
    (h : resolvedRef ms imp n = some t) : ∃ modId, t = .value modId n := by
  rw [resolvedRef] at h
  split at h
  · cases h
  · split at h
    · obtain ⟨v, -, rfl⟩ := Option.map_eq_some_iff.mp h
      exact ⟨_, rfl⟩
    · cases h

/-- What is imported is resolved where its module is there. -/
theorem isSome_resolvedRef {ms : List Module} {m : Module}
    (himports : valueLinkImportLists ms m = false) {imp : ImportModule} (himp : imp ∈ m.imports)
    {n : Name} {e : ImportElmt} (he : lookupImportElmtInImportElmtList imp.importElmts n = some e)
    (hvalue : n.isValue = true) :
    (resolvedRef ms imp n).isSome = (lookupModule ms imp.modId).isSome := by
  obtain ⟨hmem, rfl⟩ := name_of_lookupElmt he
  rw [resolvedRef]
  cases hmodule : lookupModule ms imp.modId with
  | none => rfl
  | some impRefMod =>
      have hlist := List.any_eq_false.mp himports imp himp
      rw [hmodule] at hlist
      have helmt := List.any_eq_false.mp (Bool.not_eq_true _ ▸ hlist) e hmem
      dsimp only
      rw [if_pos hvalue]
      cases hdef : lookupValue impRefMod.valueDefs e.name with
      | none => simp [hvalue, hdef] at helmt
      | some v => rfl

/-! ### Completeness -/

section Completeness

variable {ms : List Module} {m : Module} {p : Place}

/-- Only a named element of the governing type makes a named element the target. -/
theorem named_of_target (hmodule : p.ref.moduleName = none) {e : NamedElmt}
    (h : target ms m p = some (.namedElmt e)) :
    lookupNamedElmt p.governing p.ref.valueName = some e := by
  rw [target, hmodule] at h
  dsimp only at h
  cases hnamed : lookupNamedElmt p.governing p.ref.valueName with
  | some e' =>
      rw [hnamed] at h
      rw [(Target.namedElmt.inj (Option.some.inj h))]
  | none =>
      rw [hnamed] at h
      dsimp only at h
      split at h
      · cases h
      · split at h
        · obtain ⟨modId, hvalue⟩ := value_of_resolvedRef h
          cases hvalue
        · cases h

theorem not_named_of_target (hmodule : p.ref.moduleName = none) {modId : ModuleId} {n : Name}
    (h : target ms m p = some (.value modId n)) :
    lookupNamedElmt p.governing p.ref.valueName = none := by
  cases hnamed : lookupNamedElmt p.governing p.ref.valueName with
  | none => rfl
  | some e =>
      rw [target, hmodule] at h
      dsimp only at h
      rw [hnamed] at h
      cases h

/-- The link of a reference that is reached, or is not. -/
def finalLink (ms : List Module) (m : Module) (p : Place) : Option Target :=
  if p.skipped then none else (linkValueRef ms m p.searched p.ref).link

/-- An unqualified reference that goes through the imports. -/
theorem link_imported {imp : ImportModule} {e : ImportElmt} (hmodule : p.ref.moduleName = none)
    (hnamed : lookupNamedElmt p.searched p.ref.valueName = none)
    (hlocal : lookupValue m.valueDefs p.ref.valueName = none)
    (hfound : lookupImportElmt p.ref.valueName m.imports = some (imp, e))
    (hpublic : e.privateScope = false) :
    (linkValueRef ms m p.searched p.ref).link = resolvedRef ms imp p.ref.valueName ∧
      importedThrough m p = some imp := by
  constructor
  · simp [linkValueRef, hmodule, hnamed, hlocal, hfound, hpublic]
  · simp [importedThrough, hmodule, hnamed, hlocal, hfound]

theorem linked_unqualified_iff (himports : valueLinkImportLists ms m = false)
    (hdefined : p.skipped = false → ¬ Undefined m p) (hvalue : p.ref.valueName.isValue = true)
    (hmodule : p.ref.moduleName = none) :
    (∃ t, target ms m p = some t ∧ finalLink ms m p = some t) ↔ Reached ms m p := by
  cases hskipped : p.skipped with
  | true =>
      refine iff_of_false ?_ fun h => absurd (h.visited.symm.trans hskipped) (by decide)
      rintro ⟨t, -, hlink⟩
      rw [finalLink, hskipped, if_pos rfl] at hlink
      cases hlink
  | false =>
      have hfinal : finalLink ms m p = (linkValueRef ms m p.searched p.ref).link := by
        rw [finalLink, hskipped]
        rfl
      rw [hfinal]
      cases hnamed : lookupNamedElmt p.searched p.ref.valueName with
      -- the walk finds a named element: it has to be that of the governing type
      | some e =>
          have hlink : (linkValueRef ms m p.searched p.ref).link = some (.namedElmt e) := by
            simp [linkValueRef, hmodule, hnamed]
          have hthrough : importedThrough m p = none := by
            simp [importedThrough, hmodule, hnamed]
          rw [hlink]
          constructor
          · rintro ⟨t, htarget, ht⟩
            obtain rfl := Option.some.inj ht
            refine ⟨hskipped, fun _ => ?_, fun imp himp => ?_⟩
            · rw [hnamed]
              exact (named_of_target hmodule htarget).symm
            · rw [hthrough] at himp
              cases himp
          · intro h
            refine ⟨_, ?_, rfl⟩
            simp [target, hmodule, ← h.governed hmodule, hnamed]
      | none =>
          have hgoverned : (p.ref.moduleName = none →
              lookupNamedElmt p.searched p.ref.valueName =
                lookupNamedElmt p.governing p.ref.valueName) ↔
              lookupNamedElmt p.governing p.ref.valueName = none := by
            rw [hnamed]
            exact ⟨fun h => (h hmodule).symm, fun h _ => h.symm⟩
          -- otherwise the governing type must not have one either
          cases hlocal : lookupValue m.valueDefs p.ref.valueName with
          | some v =>
              have hlink : (linkValueRef ms m p.searched p.ref).link =
                  some (.value m.modId p.ref.valueName) := by
                simp [linkValueRef, hmodule, hnamed, hlocal]
              have hthrough : importedThrough m p = none := by
                simp [importedThrough, hmodule, hlocal]
              rw [hlink]
              constructor
              · rintro ⟨t, htarget, ht⟩
                obtain rfl := Option.some.inj ht
                refine ⟨hskipped, hgoverned.mpr (not_named_of_target hmodule htarget),
                  fun imp himp => ?_⟩
                rw [hthrough] at himp
                cases himp
              · intro h
                refine ⟨_, ?_, rfl⟩
                simp [target, hmodule, hgoverned.mp h.governed, hlocal]
          | none =>
              -- a reference that is not undefined is found in an import list, in public
              obtain ⟨imp, e, hfound, hpublic⟩ : ∃ imp e,
                  lookupImportElmt p.ref.valueName m.imports = some (imp, e) ∧
                    e.privateScope = false := by
                by_contra hnone
                refine hdefined hskipped ?_
                rw [Undefined, hmodule]
                refine ⟨hnamed, hlocal, fun imp e hfound => ?_⟩
                by_contra hscope
                exact hnone ⟨imp, e, hfound, by simpa using hscope⟩
              obtain ⟨hlink, hthrough⟩ :=
                @link_imported ms m p imp e hmodule hnamed hlocal hfound hpublic
              obtain ⟨himp, helmt⟩ := mem_of_lookupImportElmt hfound
              have hsome := isSome_resolvedRef himports himp helmt hvalue
              rw [hlink]
              constructor
              · rintro ⟨t, htarget, ht⟩
                obtain ⟨modId, rfl⟩ := value_of_resolvedRef ht
                refine ⟨hskipped, hgoverned.mpr (not_named_of_target hmodule htarget),
                  fun imp' himp' => ?_⟩
                obtain rfl := Option.some.inj (hthrough.symm.trans himp')
                rw [← hsome, ht]
                rfl
              · intro h
                have hpresent := h.present imp hthrough
                rw [← hsome] at hpresent
                obtain ⟨t, ht⟩ := Option.isSome_iff_exists.mp hpresent
                refine ⟨t, ?_, ht⟩
                simp only [target, hmodule, hgoverned.mp h.governed, hlocal,
                  lookupImportElmt_public hfound hpublic]
                exact ht

theorem linked_qualified_iff (himports : valueLinkImportLists ms m = false)
    (hdefined : p.skipped = false → ¬ Undefined m p) (hvalue : p.ref.valueName.isValue = true)
    {moduleName : Name} (hmodule : p.ref.moduleName = some moduleName) :
    (∃ t, target ms m p = some t ∧ finalLink ms m p = some t) ↔ Reached ms m p := by
  cases hskipped : p.skipped with
  | true =>
      refine iff_of_false ?_ fun h => absurd (h.visited.symm.trans hskipped) (by decide)
      rintro ⟨t, -, hlink⟩
      rw [finalLink, hskipped, if_pos rfl] at hlink
      cases hlink
  | false =>
      obtain ⟨imp, e, hlist, helmt⟩ : ∃ imp e,
          m.imports.find? (fun imp => imp.modId.name = moduleName) = some imp ∧
            lookupImportElmtInImportElmtList imp.importElmts p.ref.valueName = some e := by
        by_contra hnone
        refine hdefined hskipped ?_
        rw [Undefined, hmodule]
        intro imp hlist
        by_contra hfound
        obtain ⟨e, helmt⟩ := Option.ne_none_iff_exists'.mp hfound
        exact hnone ⟨imp, e, hlist, helmt⟩
      have hfinal : finalLink ms m p = resolvedRef ms imp p.ref.valueName := by
        simp [finalLink, hskipped, linkValueRef, hmodule, hlist, helmt]
      have htarget : target ms m p = resolvedRef ms imp p.ref.valueName := by
        simp [target, hmodule, hlist, helmt]
      have hthrough : importedThrough m p = some imp := by
        simp [importedThrough, hmodule, hlist]
      have hsome := isSome_resolvedRef himports (List.mem_of_find?_eq_some hlist) helmt hvalue
      rw [hfinal, htarget]
      constructor
      · rintro ⟨t, ht, -⟩
        refine ⟨hskipped, fun h => ?_, fun imp' himp' => ?_⟩
        · rw [hmodule] at h
          cases h
        · obtain rfl := Option.some.inj (hthrough.symm.trans himp')
          rw [← hsome, ht]
          rfl
      · intro h
        have hpresent := h.present imp hthrough
        rw [← hsome] at hpresent
        obtain ⟨t, ht⟩ := Option.isSome_iff_exists.mp hpresent
        exact ⟨t, ht, ht⟩

theorem linked_iff (himports : valueLinkImportLists ms m = false)
    (hdefined : p.skipped = false → ¬ Undefined m p)
    (hvalue : p.ref.valueName.isValue = true) :
    (∃ t, target ms m p = some t ∧ finalLink ms m p = some t) ↔ Reached ms m p := by
  cases hmodule : p.ref.moduleName with
  | none => exact linked_unqualified_iff himports hdefined hvalue hmodule
  | some moduleName => exact linked_qualified_iff himports hdefined hvalue hmodule

end Completeness

/-- `max` -/
def maxName : Name := ['m', 'a', 'x']

def maxRef : ValueRef := ⟨0, none, maxName⟩

/-- `INTEGER (0..max)` -/
def boundedInteger : AsnType :=
  .mk [] (.named []) (.single (.valueRange .other (.valueRef maxRef))) none

/-- A module with `max INTEGER ::= 5` and one type. -/
def boundedModule (type : AsnType) : Module where
  modId := ⟨['M'], []⟩
  oid := []
  failed := false
  typeDefs := [type]
  valueDefs := [⟨maxName, true, .mk [] (.named []) .null none, .other⟩]
  imports := []

end Esnacc.Compiler.Values
