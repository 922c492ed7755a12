import Mathlib
import Esnacc.Lib.SimplePath

/-!
Recursive type definitions. From each definition on, references are followed through the aggregate
types up to the definition itself; a definition that is entered already is not entered again.
-/

namespace Esnacc.Compiler.RecursiveTypes

open SimplePath

variable {κ : Type}

mutual

/-- A type; `κ` are the type definitions. The types of the kinds that are no aggregates may have
types inside, as the contents of a string. -/
inductive AsnType (κ : Type)
  | choice (alternatives : Types κ)
  | setOrSequence (elmts : Elmts κ)
  | listOf (elmt : AsnType κ)
  | typeRef (link : κ)
  | other (inside : Types κ)

inductive Types (κ : Type)
  | nil
  | cons (type : AsnType κ) (rest : Types κ)

/-- The elements of a SET or SEQUENCE; `optional` is OPTIONAL or a DEFAULT. -/
inductive Elmts (κ : Type)
  | nil
  | cons (optional : Bool) (type : AsnType κ) (rest : Elmts κ)

end

def Types.count : Types κ → ℕ
  | .nil => 0
  | .cons _ rest => rest.count + 1

/-- The two flags on the way to a reference. -/
structure Flags where
  optional : Bool
  empty : Bool
  deriving DecidableEq, Repr

inductive Warning
  | noValues
  | infinitelySized
  deriving DecidableEq, Repr

/-- What is printed where a reference to the definition itself is found. -/
def Flags.warning (flags : Flags) : Option Warning :=
  if flags.empty then some .noValues
  else if !flags.optional then some .infinitelySized
  else none

section Marking

variable [DecidableEq κ]

mutual

/-- The flags of every reference to `td` that is found. `entered` are the definitions whose
`tmpRefCount` is set, and `enter` follows a reference into one that is not. -/
def mkRecType (td : κ) (entered : List κ) (enter : κ → Flags → Option (List Flags)) :
    AsnType κ → Flags → Option (List Flags)
  | .choice alternatives, flags =>
      mkRecTypes td entered enter alternatives
        (if 1 < alternatives.count then ⟨true, false⟩ else flags)
  | .setOrSequence elmts, flags => mkRecElmts td entered enter elmts flags.optional
  | .listOf elmt, _ => mkRecType td entered enter elmt ⟨true, false⟩
  | .typeRef link, flags =>
      if link = td then some [flags]
      else if link ∈ entered then some []
      -- the OPTIONAL of a reference is that of its element, which is in the flags already
      else enter link flags
  | .other _, _ => some []

def mkRecTypes (td : κ) (entered : List κ) (enter : κ → Flags → Option (List Flags)) :
    Types κ → Flags → Option (List Flags)
  | .nil, _ => some []
  | .cons type rest, flags =>
      (mkRecType td entered enter type flags).bind fun found =>
        (mkRecTypes td entered enter rest flags).map (found ++ ·)

def mkRecElmts (td : κ) (entered : List κ) (enter : κ → Flags → Option (List Flags)) :
    Elmts κ → (optional : Bool) → Option (List Flags)
  | .nil, _ => some []
  | .cons optional' type rest, optional =>
      (mkRecType td entered enter type ⟨optional || optional', false⟩).bind fun found =>
        (mkRecElmts td entered enter rest optional).map (found ++ ·)

end

variable (definition : κ → AsnType κ)

/-- A definition is entered for as long as its type is searched. -/
def enterTypeDef (td : κ) : ℕ → (entered : List κ) → κ → Flags → Option (List Flags)
  | 0, _, _, _ => none
  | fuel + 1, entered, link, flags =>
      mkRecType td (link :: entered) (enterTypeDef td fuel (link :: entered)) (definition link)
        flags

def mkRecTypeDef (fuel : ℕ) (td : κ) : Option (List Flags) :=
  mkRecType td [] (enterTypeDef definition td fuel []) (definition td) ⟨false, true⟩

/-- The marks and the warnings that have been printed. -/
structure Marks (κ : Type) where
  recursive : κ → Bool
  warnings : List (κ × Warning)

def Marks.add (marks : Marks κ) (td : κ) (found : List Flags) : Marks κ where
  recursive := fun td' => (td' = td && !found.isEmpty) || marks.recursive td'
  warnings := marks.warnings ++ found.filterMap fun flags => flags.warning.map (td, ·)

def markRecursiveTypes (fuel : ℕ) : (typeDefs : List κ) → Marks κ → Option (Marks κ)
  | [], marks => some marks
  | td :: typeDefs, marks =>
      (mkRecTypeDef definition fuel td).bind fun found =>
        markRecursiveTypes fuel typeDefs (marks.add td found)

end Marking

/-! ### References -/

mutual

/-- The references in the aggregates of a type, with the flags that they add. -/
def refsOf : AsnType κ → List (κ × Flags)
  | .choice alternatives =>
      if 1 < alternatives.count then (refsOfTypes alternatives).map fun r => (r.1, ⟨true, false⟩)
      else refsOfTypes alternatives
  | .setOrSequence elmts => refsOfElmts elmts
  | .listOf elmt => (refsOf elmt).map fun r => (r.1, ⟨true, false⟩)
  | .typeRef link => [(link, ⟨false, true⟩)]
  | .other _ => []

def refsOfTypes : Types κ → List (κ × Flags)
  | .nil => []
  | .cons type rest => refsOf type ++ refsOfTypes rest

def refsOfElmts : Elmts κ → List (κ × Flags)
  | .nil => []
  | .cons optional type rest =>
      (refsOf type).map (fun r => (r.1, ⟨optional || r.2.optional, false⟩)) ++ refsOfElmts rest

end

/-- The flags after more of the way. -/
def Flags.join (flags more : Flags) : Flags :=
  ⟨flags.optional || more.optional, flags.empty && more.empty⟩

theorem Flags.join_assoc (a b c : Flags) : (a.join b).join c = a.join (b.join c) := by
  simp [Flags.join, Bool.or_assoc, Bool.and_assoc]

theorem Flags.list_join (a b : Flags) :
    (⟨true, false⟩ : Flags).join b = a.join ⟨true, false⟩ := by
  simp [Flags.join]

/-- All results put together. -/
def collect {α : Type} : List (Option (List α)) → Option (List α)
  | [] => some []
  | x :: xs => x.bind fun a => (collect xs).map (a ++ ·)

theorem collect_append {α : Type} (xs ys : List (Option (List α))) :
    collect (xs ++ ys) = (collect xs).bind fun a => (collect ys).map (a ++ ·) := by
  induction xs with
  | nil => simp [collect]
  | cons x xs ih =>
      rw [List.cons_append, collect, collect, ih]
      cases x with
      | none => rfl
      | some a =>
          cases collect xs with
          | none => rfl
          | some b => cases collect ys <;> simp

/-- Everything is there if each part is. -/
theorem exists_collect {α β : Type} {visit : β → Option (List α)} {l : List β} {P : β → α → Prop}
    (h : ∀ b ∈ l, ∃ found, visit b = some found ∧ ∀ a, a ∈ found ↔ P b a) :
    ∃ found, collect (l.map visit) = some found ∧ ∀ a, a ∈ found ↔ ∃ b ∈ l, P b a := by
  induction l with
  | nil => exact ⟨[], rfl, by simp⟩
  | cons b l ih =>
      obtain ⟨found, hfound, hmem⟩ := h b List.mem_cons_self
      obtain ⟨rest, hrest, hmem'⟩ := ih fun b' hb' => h b' (List.mem_cons_of_mem b hb')
      refine ⟨found ++ rest, ?_, fun a => ?_⟩
      · rw [List.map_cons, collect, hfound, hrest]
        rfl
      · rw [List.mem_append, hmem, hmem', List.exists_mem_cons_iff]

section Search

variable [DecidableEq κ] (td : κ) (entered : List κ) (enter : κ → Flags → Option (List Flags))

/-- What is done with a reference. -/
def visit (flags : Flags) (ref : κ × Flags) : Option (List Flags) :=
  if ref.1 = td then some [flags.join ref.2]
  else if ref.1 ∈ entered then some []
  else enter ref.1 (flags.join ref.2)

/-- In a part with two alternatives or in a list the flags no longer matter. -/
theorem map_visit_list (refs : List (κ × Flags)) (flags : Flags) :
    refs.map (visit td entered enter ⟨true, false⟩) =
      (refs.map fun r => (r.1, (⟨true, false⟩ : Flags))).map (visit td entered enter flags) := by
  rw [List.map_map]
  refine List.map_congr_left fun r _ => ?_
  simp only [visit, Function.comp_apply, Flags.list_join flags]

mutual

/-- The search visits the references in their order. -/
theorem mkRecType_eq : ∀ (t : AsnType κ) (flags : Flags), mkRecType td entered enter t flags =
    collect ((refsOf t).map (visit td entered enter flags))
  | .choice alternatives, flags => by
      rw [mkRecType, mkRecTypes_eq, refsOf]
      split
      · rw [map_visit_list td entered enter _ flags]
      · rfl
  | .setOrSequence elmts, flags => by
      rw [mkRecType, mkRecElmts_eq elmts flags.optional flags.empty, refsOf]
  | .listOf elmt, flags => by
      rw [mkRecType, mkRecType_eq elmt, refsOf, map_visit_list td entered enter _ flags]
  | .typeRef link, flags => by
      have hjoin : flags.join ⟨false, true⟩ = flags := by
        simp [Flags.join]
      rw [mkRecType, refsOf, List.map_singleton, collect, collect, visit, hjoin]
      simp
  | .other _, _ => rfl

theorem mkRecTypes_eq : ∀ (types : Types κ) (flags : Flags),
    mkRecTypes td entered enter types flags =
      collect ((refsOfTypes types).map (visit td entered enter flags))
  | .nil, _ => rfl
  | .cons type rest, flags => by
      rw [mkRecTypes, mkRecType_eq type, mkRecTypes_eq rest, refsOfTypes, List.map_append,
        collect_append]

theorem mkRecElmts_eq : ∀ (elmts : Elmts κ) (optional empty : Bool),
    mkRecElmts td entered enter elmts optional =
      collect ((refsOfElmts elmts).map (visit td entered enter ⟨optional, empty⟩))
  | .nil, _, _ => rfl
  | .cons optional' type rest, optional, empty => by
      have hvisit : visit td entered enter ⟨optional || optional', false⟩ =
          visit td entered enter ⟨optional, empty⟩ ∘
            fun r => (r.1, ⟨optional' || r.2.optional, false⟩) := by
        funext r
        simp [visit, Flags.join, Bool.or_assoc]
      rw [mkRecElmts, mkRecType_eq type, mkRecElmts_eq rest optional empty, refsOfElmts,
        List.map_append, collect_append, List.map_map, hvisit]

end

end Search

/-! ### What is found -/

section Exact

variable (definition : κ → AsnType κ)

/-- From the definition of `u` a reference to `td` is found, with these flags. -/
inductive Via (td : κ) : List κ → κ → Flags → Prop
  | last {entered : List κ} {u : κ} {flags : Flags} (h : (td, flags) ∈ refsOf (definition u)) :
      Via td entered u flags
  | step {entered : List κ} {u v : κ} {flags more : Flags}
      (h : (v, flags) ∈ refsOf (definition u)) (hgoal : v ≠ td) (hnew : v ∉ entered)
      (hrest : Via td (v :: entered) v more) : Via td entered u (flags.join more)

theorem via_cases {td : κ} {entered : List κ} {u : κ} {found : Flags} :
    Via definition td entered u found ↔ ∃ ref ∈ refsOf (definition u),
      (ref.1 = td ∧ found = ref.2) ∨ (ref.1 ≠ td ∧ ref.1 ∉ entered ∧
        ∃ more, Via definition td (ref.1 :: entered) ref.1 more ∧ found = ref.2.join more) := by
  constructor
  · rintro (h | ⟨h, hgoal, hnew, hrest⟩)
    · exact ⟨_, h, Or.inl ⟨rfl, rfl⟩⟩
    · exact ⟨_, h, Or.inr ⟨hgoal, hnew, _, hrest, rfl⟩⟩
  · rintro ⟨⟨v, flags⟩, h, ⟨rfl, rfl⟩ | ⟨hgoal, hnew, more, hrest, rfl⟩⟩
    · exact .last h
    · exact .step h hgoal hnew hrest

variable [DecidableEq κ]

/-- If what is entered is searched exactly, the whole type is. -/
theorem mkRecType_of_enter {td : κ} {entered : List κ} {enter : κ → Flags → Option (List Flags)}
    (henter : ∀ v ∉ entered, ∀ flags, ∃ found, enter v flags = some found ∧
      ∀ f, f ∈ found ↔ ∃ more, Via definition td (v :: entered) v more ∧ f = flags.join more)
    (u : κ) (flags : Flags) :
    ∃ found, mkRecType td entered enter (definition u) flags = some found ∧
      ∀ f, f ∈ found ↔ ∃ more, Via definition td entered u more ∧ f = flags.join more := by
  have hvisit : ∀ ref ∈ refsOf (definition u), ∃ found,
      visit td entered enter flags ref = some found ∧
        ∀ f, f ∈ found ↔ (ref.1 = td ∧ f = flags.join ref.2) ∨
          (ref.1 ≠ td ∧ ref.1 ∉ entered ∧ ∃ more, Via definition td (ref.1 :: entered) ref.1 more ∧
            f = (flags.join ref.2).join more) := by
    rintro ⟨v, added⟩ -
    rw [visit]
    by_cases hgoal : v = td
    · exact ⟨_, if_pos hgoal, by simp [hgoal]⟩
    · rw [if_neg hgoal]
      by_cases hnew : v ∈ entered
      · exact ⟨_, if_pos hnew, by simp [hgoal, hnew]⟩
      · rw [if_neg hnew]
        obtain ⟨found, hfound, hmem⟩ := henter v hnew (flags.join added)
        exact ⟨found, hfound, fun f => (hmem f).trans (by simp [hgoal, hnew])⟩
  obtain ⟨found, hfound, hmem⟩ := exists_collect hvisit
  refine ⟨found, (mkRecType_eq td entered enter _ flags).trans hfound, fun f => (hmem f).trans ?_⟩
  constructor
  · rintro ⟨⟨v, added⟩, href, ⟨rfl, rfl⟩ | ⟨hgoal, hnew, more, hvia, rfl⟩⟩
    · exact ⟨added, .last href, rfl⟩
    · exact ⟨added.join more, .step href hgoal hnew hvia, Flags.join_assoc _ _ _⟩
  · rintro ⟨more, hvia, rfl⟩
    obtain ⟨ref, href, hcase⟩ := (via_cases definition).1 hvia
    refine ⟨ref, href, ?_⟩
    rcases hcase with ⟨hgoal, rfl⟩ | ⟨hgoal, hnew, more, hrest, rfl⟩
    · exact Or.inl ⟨hgoal, rfl⟩
    · exact Or.inr ⟨hgoal, hnew, more, hrest, (Flags.join_assoc _ _ _).symm⟩

/-- With fuel for every definition that is not entered yet the search ends, and finds exactly the
references that there is a way to. -/
theorem mkRecType_exact [Fintype κ] (td : κ) (fuel : ℕ) {entered : List κ}
    (hnodup : entered.Nodup) (hfuel : Fintype.card κ ≤ fuel + entered.length) (u : κ)
    (flags : Flags) :
    ∃ found, mkRecType td entered (enterTypeDef definition td fuel entered) (definition u) flags =
      some found ∧
        ∀ f, f ∈ found ↔ ∃ more, Via definition td entered u more ∧ f = flags.join more := by
  induction fuel generalizing entered u flags with
  | zero =>
      refine mkRecType_of_enter definition (fun v hnew => ?_) u flags
      -- all definitions have been entered, so that none is new
      have hlength := (List.nodup_cons.2 ⟨hnew, hnodup⟩).length_le_card
      rw [List.length_cons] at hlength
      omega
  | succ fuel ih =>
      refine mkRecType_of_enter definition (fun v hnew flags => ?_) u flags
      refine ih (List.nodup_cons.2 ⟨hnew, hnodup⟩) ?_ v flags
      rw [List.length_cons]
      omega

/-- The search from a definition to itself. -/
theorem mkRecTypeDef_exact [Fintype κ] (td : κ) :
    ∃ found, mkRecTypeDef definition (Fintype.card κ) td = some found ∧
      ∀ f, f ∈ found ↔ Via definition td [] td f := by
  obtain ⟨found, hfound, hmem⟩ := mkRecType_exact definition td (Fintype.card κ) List.nodup_nil
    (Nat.le_add_right _ _) td ⟨false, true⟩
  refine ⟨found, hfound, fun f => (hmem f).trans ?_⟩
  have hjoin (more : Flags) : (⟨false, true⟩ : Flags).join more = more := by
    simp [Flags.join]
  simp [hjoin]

end Exact

/-! ### Ways and cycles -/

section Cycles

variable (definition : κ → AsnType κ)

/-- The definition of `u` refers to `v` in its aggregates. -/
def RefersTo (u v : κ) : Prop := ∃ flags, (v, flags) ∈ refsOf (definition u)

/-- It does so without OPTIONAL, DEFAULT, a CHOICE of several alternatives, SET OF or SEQUENCE OF
on the way. -/
def RefersFirmly (u v : κ) : Prop := ∃ flags, (v, flags) ∈ refsOf (definition u) ∧ !flags.optional

variable {definition} {td : κ} {entered : List κ} {u : κ}

theorem exists_via_iff :
    (∃ f, Via definition td entered u f) ↔ Simple (RefersTo definition) td entered u := by
  constructor
  · rintro ⟨f, h⟩
    induction h with
    | last h => exact .last ⟨_, h⟩
    | step h hgoal hnew _ ih => exact .step ⟨_, h⟩ hgoal hnew ih
  · intro h
    induction h with
    | last h =>
        obtain ⟨flags, h⟩ := h
        exact ⟨flags, .last h⟩
    | step h hgoal hnew _ ih =>
        obtain ⟨flags, h⟩ := h
        obtain ⟨more, hvia⟩ := ih
        exact ⟨_, .step h hgoal hnew hvia⟩

theorem exists_via_firm_iff : (∃ f, Via definition td entered u f ∧ !f.optional) ↔
    Simple (RefersFirmly definition) td entered u := by
  constructor
  · rintro ⟨f, h, hfirm⟩
    induction h with
    | last h => exact .last ⟨_, h, hfirm⟩
    | step h hgoal hnew _ ih =>
        rw [Flags.join, Bool.not_or, Bool.and_eq_true] at hfirm
        exact .step ⟨_, h, hfirm.1⟩ hgoal hnew (ih hfirm.2)
  · intro h
    induction h with
    | last h =>
        obtain ⟨flags, h, hfirm⟩ := h
        exact ⟨flags, .last h, hfirm⟩
    | step h hgoal hnew _ ih =>
        obtain ⟨flags, h, hfirm⟩ := h
        obtain ⟨more, hvia, hfirm'⟩ := ih
        refine ⟨_, .step h hgoal hnew hvia, ?_⟩
        rw [Flags.join, Bool.not_or, hfirm, hfirm', Bool.and_self]

mutual

/-- Where nothing but references is met nothing is optional. -/
theorem firm_of_empty : ∀ (t : AsnType κ) {ref : κ × Flags}, ref ∈ refsOf t → ref.2.empty →
    !ref.2.optional
  | .choice alternatives, ref, href, hempty => by
      rw [refsOf] at href
      split at href
      · obtain ⟨_, -, rfl⟩ := List.mem_map.1 href
        cases hempty
      · exact firm_of_empty_types alternatives href hempty
  | .setOrSequence elmts, ref, href, hempty => by
      rw [refsOf] at href
      exact absurd hempty (not_empty_elmts elmts href)
  | .listOf elmt, ref, href, hempty => by
      rw [refsOf] at href
      obtain ⟨_, -, rfl⟩ := List.mem_map.1 href
      cases hempty
  | .typeRef link, ref, href, _ => by
      rw [refsOf, List.mem_singleton] at href
      rw [href]
      rfl
  | .other _, _, href, _ => by
      rw [refsOf] at href
      cases href

theorem firm_of_empty_types : ∀ (types : Types κ) {ref : κ × Flags}, ref ∈ refsOfTypes types →
    ref.2.empty → !ref.2.optional
  | .nil, _, href, _ => by
      rw [refsOfTypes] at href
      cases href
  | .cons type rest, ref, href, hempty => by
      rw [refsOfTypes, List.mem_append] at href
      rcases href with href | href
      · exact firm_of_empty type href hempty
      · exact firm_of_empty_types rest href hempty

theorem not_empty_elmts : ∀ (elmts : Elmts κ) {ref : κ × Flags}, ref ∈ refsOfElmts elmts →
    ¬ ref.2.empty
  | .nil, _, href => by
      rw [refsOfElmts] at href
      cases href
  | .cons optional type rest, ref, href => by
      rw [refsOfElmts, List.mem_append] at href
      rcases href with href | href
      · obtain ⟨_, -, rfl⟩ := List.mem_map.1 href
        nofun
      · exact not_empty_elmts rest href

end

theorem Via.firm_of_empty {f : Flags} (h : Via definition td entered u f) (hempty : f.empty) :
    !f.optional := by
  induction h with
  | last h => exact RecursiveTypes.firm_of_empty _ h hempty
  | step h _ _ _ ih =>
      rw [Flags.join, Bool.and_eq_true] at hempty
      have hfirst : !_ := RecursiveTypes.firm_of_empty _ h hempty.1
      rw [Flags.join, Bool.not_or, hfirst, ih hempty.2, Bool.and_self]

/-- There is a warning for each way that is not optional. -/
theorem Via.exists_warning_iff {f : Flags} (h : Via definition td entered u f) :
    (∃ w, f.warning = some w) ↔ !f.optional := by
  rw [Flags.warning]
  split_ifs with hempty hoptional
  · exact iff_of_true ⟨_, rfl⟩ (h.firm_of_empty hempty)
  · exact iff_of_true ⟨_, rfl⟩ hoptional
  · exact iff_of_false nofun hoptional

end Cycles

/-! ### All definitions of a module -/

section Module

variable [DecidableEq κ] (definition : κ → AsnType κ)

/-- What a definition's search finds is marked and printed for this definition. -/
theorem Marks.add_iff (marks : Marks κ) (td : κ) (found : List Flags) (td' : κ) :
    ((marks.add td found).recursive td' ↔ marks.recursive td' ∨ td' = td ∧ ∃ f, f ∈ found) ∧
    ((∃ w, (td', w) ∈ (marks.add td found).warnings) ↔ (∃ w, (td', w) ∈ marks.warnings) ∨
      td' = td ∧ ∃ f ∈ found, ∃ w, f.warning = some w) := by
  constructor
  · cases found with
    | nil => simp [Marks.add]
    | cons f found =>
        simp only [Marks.add, List.isEmpty_cons, Bool.not_false, Bool.and_true, Bool.or_eq_true,
          decide_eq_true_eq]
        exact ⟨fun h => h.symm.imp_right fun h => ⟨h, f, List.mem_cons_self⟩,
          fun h => (h.imp_right And.left).symm⟩
  · simp only [Marks.add, List.mem_append, List.mem_filterMap, Option.map_eq_some_iff,
      Prod.mk.injEq]
    constructor
    · rintro ⟨w, hw | ⟨f, hf, w', hw', rfl, rfl⟩⟩
      · exact Or.inl ⟨w, hw⟩
      · exact Or.inr ⟨rfl, f, hf, w', hw'⟩
    · rintro (⟨w, hw⟩ | ⟨rfl, f, hf, w, hw⟩)
      · exact ⟨w, Or.inl hw⟩
      · exact ⟨w, Or.inr ⟨f, hf, w, hw, rfl, rfl⟩⟩

theorem markRecursiveTypes_fold [Fintype κ] (typeDefs : List κ) (marks : Marks κ) :
    ∃ marks', markRecursiveTypes definition (Fintype.card κ) typeDefs marks = some marks' ∧
      ∀ td, (marks'.recursive td ↔ marks.recursive td ∨
          td ∈ typeDefs ∧ ∃ f, Via definition td [] td f) ∧
        ((∃ w, (td, w) ∈ marks'.warnings) ↔ (∃ w, (td, w) ∈ marks.warnings) ∨
          td ∈ typeDefs ∧ ∃ f, Via definition td [] td f ∧ !f.optional) := by
  induction typeDefs generalizing marks with
  | nil => exact ⟨marks, rfl, by simp⟩
  | cons first typeDefs ih =>
      obtain ⟨found, hfound, hmem⟩ := mkRecTypeDef_exact definition first
      obtain ⟨marks', hmarks, hiff⟩ := ih (marks.add first found)
      refine ⟨marks', ?_, fun td => ?_⟩
      · rw [markRecursiveTypes, hfound]
        exact hmarks
      -- the warnings of a search are those of the ways that it has found
      · have hwarn : (∃ f ∈ found, ∃ w, f.warning = some w) ↔
            ∃ f, Via definition first [] first f ∧ !f.optional :=
          exists_congr fun f => by
            rw [hmem]
            exact and_congr_right fun hvia => hvia.exists_warning_iff
        obtain ⟨hrecursive, hwarnings⟩ := marks.add_iff first found td
        constructor
        · rw [(hiff td).1, hrecursive, List.mem_cons]
          simp only [hmem]
          grind
        · rw [(hiff td).2, hwarnings, List.mem_cons, hwarn]
          grind

/-- Exactly the definitions that come back to themselves through the references in aggregates are
marked, and those that come back without anything optional are warned of. -/
theorem markRecursiveTypes_exact [Fintype κ] (typeDefs : List κ) :
    ∃ fuel marks, markRecursiveTypes definition fuel typeDefs ⟨fun _ => false, []⟩ = some marks ∧
      ∀ td, (marks.recursive td ↔
          td ∈ typeDefs ∧ Relation.TransGen (RefersTo definition) td td) ∧
        ((∃ w, (td, w) ∈ marks.warnings) ↔
          td ∈ typeDefs ∧ Relation.TransGen (RefersFirmly definition) td td) := by
  obtain ⟨marks, hmarks, hiff⟩ :=
    markRecursiveTypes_fold definition typeDefs ⟨fun _ => false, []⟩
  refine ⟨_, marks, hmarks, fun td => ?_⟩
  rw [(hiff td).1, (hiff td).2, exists_via_iff, exists_via_firm_iff, simple_iff_transGen,
    simple_iff_transGen]
  simp

mutual

/-- All references in a type, also those inside of the types that are no aggregates. -/
def linksOf : AsnType κ → List κ
  | .choice alternatives => linksOfTypes alternatives
  | .setOrSequence elmts => linksOfElmts elmts
  | .listOf elmt => linksOf elmt
  | .typeRef link => [link]
  | .other inside => linksOfTypes inside

def linksOfTypes : Types κ → List κ
  | .nil => []
  | .cons type rest => linksOf type ++ linksOfTypes rest

def linksOfElmts : Elmts κ → List κ
  | .nil => []
  | .cons _ type rest => linksOf type ++ linksOfElmts rest

end

/-- `A ::= OCTET STRING (CONTAINING A)` is not marked. -/
theorem not_marks_contents : ¬ ∀ (definition : Unit → AsnType Unit) (fuel : ℕ)
    (marks : Marks Unit),
    markRecursiveTypes definition fuel [()] ⟨fun _ => false, []⟩ = some marks →
      (marks.recursive () ↔
        Relation.TransGen (fun u v => v ∈ linksOf (definition u)) () ()) := by
  intro h
  have hiff := h (fun _ => .other (.cons (.typeRef ()) .nil)) 0 _ rfl
  refine absurd (hiff.2 (.single ?_)) (by decide)
  simp [linksOf, linksOfTypes]

end Module

end Esnacc.Compiler.RecursiveTypes
