import Esnacc.Compiler.Imports

/-!
What entering qualified references into the import lists does to the resolution of names.
A reference to a module that is already imported from adds an element without the private
scope. Whether that is noticed depends on the other names of the module at that moment.
-/

namespace Esnacc.Compiler

/-! ### Reporting names -/

theorem reportDefined_congr {defined defined' ns : List Name}
    (h : ∀ n ∈ ns, n ∈ defined ↔ n ∈ defined') :
    reportDefined defined ns = reportDefined defined' ns := by
  induction ns generalizing defined defined' with
  | nil => rfl
  | cons n ns ih =>
      have hn := h n (by simp)
      have hns : ∀ n' ∈ ns, n' ∈ defined ↔ n' ∈ defined' :=
        fun n' hmem => h n' (List.mem_cons_of_mem _ hmem)
      rw [reportDefined, reportDefined]
      by_cases hdef : n ∈ defined
      · rw [if_pos hdef, if_pos (hn.1 hdef), ih hns]
      · rw [if_neg hdef, if_neg (mt hn.2 hdef)]
        apply ih
        intro n' hmem
        simp [hns n' hmem]

/-- A name that occurs nowhere else does not matter. -/
theorem reportDefined_insert {defined pre post : List Name} {n : Name} (hdef : n ∉ defined)
    (hpre : n ∉ pre) (hpost : n ∉ post) :
    reportDefined defined (pre ++ n :: post) = reportDefined defined (pre ++ post) := by
  induction pre generalizing defined with
  | nil =>
      rw [List.nil_append, List.nil_append, reportDefined, if_neg hdef]
      apply reportDefined_congr
      intro n' hmem
      have hne : n' ≠ n := fun heq => hpost (heq ▸ hmem)
      simp [hne]
  | cons p pre ih =>
      rw [List.mem_cons, not_or] at hpre
      rw [List.cons_append, List.cons_append, reportDefined, reportDefined]
      split
      · rw [ih hdef hpre.2]
      · rw [ih (by simp [hpre.1, hdef]) hpre.2]

/-- Every name is reported or new. -/
theorem length_reportDefined (defined ns : List Name) :
    (reportDefined defined ns).length + (ns.toFinset \ defined.toFinset).card = ns.length := by
  induction ns generalizing defined with
  | nil => simp [reportDefined]
  | cons n ns ih =>
      rw [reportDefined]
      split
      · rename_i hdef
        have hsame : (n :: ns).toFinset \ defined.toFinset = ns.toFinset \ defined.toFinset := by
          ext x
          simp only [List.toFinset_cons, Finset.mem_sdiff, Finset.mem_insert, List.mem_toFinset]
          constructor
          · rintro ⟨rfl | hx, hnot⟩
            · exact absurd hdef hnot
            · exact ⟨hx, hnot⟩
          · exact fun hx => ⟨.inr hx.1, hx.2⟩
        rw [hsame, List.length_cons, List.length_cons, ← ih defined]
        omega
      · rename_i hdef
        have hsplit : (n :: ns).toFinset \ defined.toFinset =
            insert n (ns.toFinset \ (n :: defined).toFinset) := by
          ext x
          simp only [List.toFinset_cons, Finset.mem_sdiff, Finset.mem_insert, List.mem_toFinset]
          by_cases hx : x = n
          · simp [hx, hdef]
          · simp [hx]
        rw [hsplit, Finset.card_insert_of_notMem (by simp), List.length_cons,
          ← ih (n :: defined)]
        omega

/-- With one name more, at most one more is reported, and none less. -/
theorem length_reportDefined_insert (pre post : List Name) (n : Name) :
    (reportDefined [] (pre ++ n :: post)).length =
      (reportDefined [] (pre ++ post)).length + if n ∈ pre ++ post then 1 else 0 := by
  have h := length_reportDefined [] (pre ++ n :: post)
  have h' := length_reportDefined [] (pre ++ post)
  have hset : (pre ++ n :: post).toFinset = insert n (pre ++ post).toFinset := by
    ext x
    simp only [List.mem_toFinset, List.mem_append, List.mem_cons, Finset.mem_insert]
    tauto
  simp only [List.toFinset_nil, Finset.sdiff_empty] at h h'
  rw [hset] at h
  rw [List.length_append, List.length_cons] at h
  rw [List.length_append] at h'
  split_ifs with hmem
  · rw [Finset.card_insert_of_mem (List.mem_toFinset.2 hmem)] at h
    omega
  · rw [Finset.card_insert_of_notMem (mt List.mem_toFinset.1 hmem)] at h
    omega

/-! ### Appending to an import list -/

/-- The list in which a name is found first, and the scope it has there. -/
def foundIn (m : Module) (n : Name) : Option (ModuleId × Bool) :=
  (lookupImportElmtInModule m n).map fun r => (r.1.modId, r.2.privateScope)

/-- The names of an import list. -/
def namesOf (imp : ImportModule) : List Name := imp.importElmts.map ImportElmt.name

/-- The names of elements without the private scope. -/
def publicNames (imps : List ImportModule) : List Name :=
  ((imps.flatMap ImportModule.importElmts).filter fun e => !e.privateScope).map ImportElmt.name

theorem lookupElmt_eq_none {elmts : List ImportElmt} {n : Name} :
    lookupImportElmtInImportElmtList elmts n = none ↔ n ∉ elmts.map ImportElmt.name := by
  rw [lookupImportElmtInImportElmtList, List.find?_eq_none]
  simp

theorem name_of_lookupElmt {elmts : List ImportElmt} {n : Name} {e : ImportElmt}
    (h : lookupImportElmtInImportElmtList elmts n = some e) : e ∈ elmts ∧ e.name = n :=
  ⟨List.mem_of_find?_eq_some h, by simpa using List.find?_some h⟩

theorem lookupElmt_append {elmts : List ImportElmt} {n n' : Name} (hne : n' ≠ n)
    (scope : Bool) : lookupImportElmtInImportElmtList (elmts ++ [⟨n, scope⟩]) n' =
      lookupImportElmtInImportElmtList elmts n' := by
  rw [lookupImportElmtInImportElmtList, List.find?_append]
  simp [lookupImportElmtInImportElmtList, hne.symm]

/-- Where the name is found in a list of import lists. -/
def foundInLists (n : Name) (imps : List ImportModule) : Option (ModuleId × Bool) :=
  (lookupImportElmt n imps).map fun r => (r.1.modId, r.2.privateScope)

theorem foundInLists_cons (n : Name) (imp : ImportModule) (imps : List ImportModule) :
    foundInLists n (imp :: imps) =
      match lookupImportElmtInImportElmtList imp.importElmts n with
      | some e => some (imp.modId, e.privateScope)
      | none => foundInLists n imps := by
  rw [foundInLists, lookupImportElmt]
  cases lookupImportElmtInImportElmtList imp.importElmts n <;> rfl

theorem foundInLists_appendElmt_ne {n n' : Name} (hne : n' ≠ n) (moduleName : Name)
    (scope : Bool) (imps : List ImportModule) :
    foundInLists n' (appendElmt moduleName ⟨n, scope⟩ imps) = foundInLists n' imps := by
  induction imps with
  | nil => rfl
  | cons imp imps ih =>
      rw [appendElmt]
      split
      · rw [foundInLists_cons, foundInLists_cons, lookupElmt_append hne]
      · rw [foundInLists_cons, foundInLists_cons, ih]

/-- A list before the first one of the module has the name. -/
def hiddenIn (moduleName n : Name) (imps : List ImportModule) : Bool :=
  (imps.takeWhile fun imp => imp.modId.name ≠ moduleName).any fun imp =>
    (namesOf imp).any fun n' => n' = n

/-- A name that is appended is found there, unless an earlier list has it. -/
theorem foundInLists_appendElmt {moduleName n : Name} {scope : Bool}
    {imps : List ImportModule} {imp : ImportModule}
    (hlist : imps.find? (fun imp => imp.modId.name = moduleName) = some imp)
    (hnew : n ∉ namesOf imp) :
    foundInLists n (appendElmt moduleName ⟨n, scope⟩ imps) =
      if hiddenIn moduleName n imps then foundInLists n imps else some (imp.modId, scope) := by
  induction imps with
  | nil => simp at hlist
  | cons k imps ih =>
      rw [appendElmt]
      by_cases hk : k.modId.name = moduleName
      · have hsame : k = imp := by simpa [hk] using hlist
        subst hsame
        rw [if_pos hk, foundInLists_cons]
        have hfind : lookupImportElmtInImportElmtList (k.importElmts ++ [⟨n, scope⟩]) n =
            some ⟨n, scope⟩ := by
          have hnone := lookupElmt_eq_none.2 hnew
          rw [lookupImportElmtInImportElmtList] at hnone ⊢
          rw [List.find?_append, hnone]
          simp
        simp [hfind, hiddenIn, hk]
      · have hrest : imps.find? (fun imp => imp.modId.name = moduleName) = some imp := by
          simpa [hk] using hlist
        rw [if_neg hk, foundInLists_cons, foundInLists_cons, ih hrest]
        cases hfind : lookupImportElmtInImportElmtList k.importElmts n with
        | none =>
            have hnot : n ∉ namesOf k := lookupElmt_eq_none.1 hfind
            simp [hiddenIn, hk, hnot]
        | some e =>
            have hmem : n ∈ namesOf k := by
              obtain ⟨he, rfl⟩ := name_of_lookupElmt hfind
              exact List.mem_map_of_mem he
            simp [hiddenIn, hk, hmem]

theorem publicNames_append (imps imps' : List ImportModule) :
    publicNames (imps ++ imps') = publicNames imps ++ publicNames imps' := by
  simp [publicNames]

/-- The appended name stands somewhere among the public ones. -/
theorem publicNames_appendElmt {moduleName n : Name} {imps : List ImportModule}
    {imp : ImportModule}
    (hlist : imps.find? (fun imp => imp.modId.name = moduleName) = some imp) :
    ∃ pre post, publicNames imps = pre ++ post ∧
      publicNames (appendElmt moduleName ⟨n, false⟩ imps) = pre ++ n :: post := by
  induction imps with
  | nil => simp at hlist
  | cons k imps ih =>
      rw [appendElmt]
      by_cases hk : k.modId.name = moduleName
      · refine ⟨publicNames [k], publicNames imps, by simp [publicNames], ?_⟩
        rw [if_pos hk]
        simp [publicNames]
      · have hrest : imps.find? (fun imp => imp.modId.name = moduleName) = some imp := by
          simpa [hk] using hlist
        obtain ⟨pre, post, hold, hnew⟩ := ih hrest
        refine ⟨publicNames [k] ++ pre, post, ?_, ?_⟩
        · rw [List.append_assoc, ← hold]
          exact publicNames_append [k] imps
        · rw [if_neg hk, List.append_assoc, ← hnew]
          exact publicNames_append [k] _

theorem find?_appendElmt (moduleName moduleName' : Name) (e : ImportElmt)
    (imps : List ImportModule) :
    (appendElmt moduleName e imps).find? (fun imp => imp.modId.name = moduleName') =
      if moduleName' = moduleName then
        (imps.find? fun imp => imp.modId.name = moduleName').map fun imp =>
          { imp with importElmts := imp.importElmts ++ [e] }
      else imps.find? fun imp => imp.modId.name = moduleName' := by
  induction imps with
  | nil => simp [appendElmt]
  | cons k imps ih =>
      rw [appendElmt]
      by_cases hk : k.modId.name = moduleName
      · rw [if_pos hk]
        by_cases heq : moduleName' = moduleName
        · simp [heq, hk]
        · have hne : ¬ k.modId.name = moduleName' := fun h => heq (h.symm.trans hk)
          simp [heq, hne]
      · rw [if_neg hk]
        by_cases hk' : k.modId.name = moduleName'
        · have heq : ¬ moduleName' = moduleName := fun h => hk (hk'.trans h)
          simp [heq, hk']
        · simpa [List.find?_cons, hk'] using ih

end Esnacc.Compiler
