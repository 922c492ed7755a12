import Esnacc.Compiler.ImportScope

/-!
Which modules have their references resolved as they should be. One qualified reference
after the other is entered into the import lists; each either keeps what holds of the
lists, or does a damage that no later reference undoes.
-/

namespace Esnacc.Compiler

/-- The element is added to an import list that was there before. -/
def addsPublic (m : Module) (q : ExternalReference) : Bool :=
  match lookupImportModule m q.moduleName with
  | none => false
  | some impMod => (lookupImportElmtInImportElmtList impMod.importElmts q.name).isNone

/-- An import list before the one of the module has the name. -/
def hidden (m : Module) (q : ExternalReference) : Bool := hiddenIn q.moduleName q.name m.imports

/-- If the reference gets an element without private scope, then its name is a new one, and
that of a type is found in an earlier import list. -/
def KeepsScope (m : Module) (q : ExternalReference) : Prop :=
  addsPublic m q = true →
    (q.name.isType = true → q.name ∉ typeNames m ∧ hidden m q = true) ∧
      (q.name.isValue = true → q.name ∉ valueNames m)

/-- So it is for every reference when the parser comes to it. -/
def AllKeepScope : Module → List ExternalReference → Prop
  | _, [] => True
  | m, q :: qs => KeepsScope m q ∧ AllKeepScope (addPrivateImportElmt m q) qs

/-! ### One reference -/

/-- What entering a reference does to the import lists. -/
theorem addPrivateImportElmt_cases (m : Module) (q : ExternalReference) :
    (lookupImportModule m q.moduleName = none ∧ addsPublic m q = false ∧
        addPrivateImportElmt m q =
          { m with imports := m.imports ++ [⟨⟨q.moduleName, []⟩, [⟨q.name, true⟩]⟩] }) ∨
      (∃ imp, lookupImportModule m q.moduleName = some imp ∧ q.name ∉ namesOf imp ∧
        addsPublic m q = true ∧ addPrivateImportElmt m q =
          { m with imports := appendElmt q.moduleName ⟨q.name, false⟩ m.imports }) ∨
      (∃ imp, lookupImportModule m q.moduleName = some imp ∧ q.name ∈ namesOf imp ∧
        addsPublic m q = false ∧ addPrivateImportElmt m q = m) := by
  rw [addsPublic, addPrivateImportElmt]
  cases hlist : lookupImportModule m q.moduleName with
  | none => exact .inl ⟨rfl, rfl, rfl⟩
  | some imp =>
      right
      cases helmt : lookupImportElmtInImportElmtList imp.importElmts q.name with
      | none => exact .inl ⟨imp, rfl, lookupElmt_eq_none.1 helmt, by simp [helmt], by simp [helmt]⟩
      | some e =>
          obtain ⟨he, hname⟩ := name_of_lookupElmt helmt
          have hmem : q.name ∈ namesOf imp := hname ▸ List.mem_map_of_mem he
          exact .inr ⟨imp, rfl, hmem, by simp [helmt], by simp [helmt]⟩

/-- Nothing but the import lists is changed. -/
theorem addPrivateImportElmt_frame (m : Module) (q : ExternalReference) :
    (addPrivateImportElmt m q).modId = m.modId ∧
      (addPrivateImportElmt m q).typeDefs = m.typeDefs ∧
      (addPrivateImportElmt m q).valueDefs = m.valueDefs := by
  rcases addPrivateImportElmt_cases m q with ⟨-, -, h⟩ | ⟨imp, -, -, -, h⟩ | ⟨imp, -, -, -, h⟩ <;>
    rw [h] <;> exact ⟨rfl, rfl, rfl⟩

theorem foundIn_eq (m : Module) (n : Name) : foundIn m n = foundInLists n m.imports := rfl

theorem foundInLists_append (n : Name) (imps imps' : List ImportModule) :
    foundInLists n (imps ++ imps') = (foundInLists n imps).or (foundInLists n imps') := by
  induction imps with
  | nil => rfl
  | cons imp imps ih =>
      rw [List.cons_append, foundInLists_cons, foundInLists_cons, ih]
      cases lookupImportElmtInImportElmtList imp.importElmts n <;> rfl

/-- Where a name is found after a reference has been entered. -/
theorem foundIn_addPrivateImportElmt (m : Module) (q : ExternalReference) (n : Name) :
    foundIn (addPrivateImportElmt m q) n = foundIn m n ∨
      (n = q.name ∧ foundIn m n = none ∧
        foundIn (addPrivateImportElmt m q) n = some (⟨q.moduleName, []⟩, true)) ∨
      n = q.name ∧ addsPublic m q = true ∧ hidden m q = false ∧
        ∃ modId, foundIn (addPrivateImportElmt m q) n = some (modId, false) := by
  rcases addPrivateImportElmt_cases m q with
    ⟨-, -, h⟩ | ⟨imp, hlist, hnew, hpublic, h⟩ | ⟨imp, -, -, -, h⟩
  · have happ : foundIn (addPrivateImportElmt m q) n =
        (foundIn m n).or (foundInLists n [⟨⟨q.moduleName, []⟩, [⟨q.name, true⟩]⟩]) := by
      rw [h]
      exact foundInLists_append n m.imports _
    cases hfound : foundIn m n with
    | some r =>
        rw [hfound] at happ
        exact .inl happ
    | none =>
        rw [hfound, Option.none_or, foundInLists_cons] at happ
        by_cases hn : n = q.name
        · subst hn
          exact .inr (.inl ⟨rfl, rfl, by simpa [lookupImportElmtInImportElmtList] using happ⟩)
        · left
          rw [happ]
          simp [lookupImportElmtInImportElmtList, Ne.symm hn, foundInLists, lookupImportElmt]
  · rw [h]
    by_cases hn : n = q.name
    · subst hn
      have hfound : foundIn { m with
          imports := appendElmt q.moduleName ⟨q.name, false⟩ m.imports } q.name = _ :=
        foundInLists_appendElmt hlist hnew
      cases hhidden : hidden m q with
      | true =>
          rw [hidden] at hhidden
          rw [hhidden, if_pos rfl] at hfound
          exact .inl hfound
      | false =>
          have hnot := hhidden
          rw [hidden] at hnot
          rw [hnot, if_neg (by decide)] at hfound
          exact .inr (.inr ⟨rfl, hpublic, rfl, _, hfound⟩)
    · exact .inl (foundInLists_appendElmt_ne hn _ _ _)
  · exact .inl (by rw [h])

/-- The public names after a reference has been entered. -/
theorem publicElmts_addPrivateImportElmt (m : Module) (q : ExternalReference) :
    ∃ pre post, publicElmts m = pre ++ post ∧ publicElmts (addPrivateImportElmt m q) =
      if addsPublic m q then pre ++ q.name :: post else pre ++ post := by
  rcases addPrivateImportElmt_cases m q with
    ⟨-, hprivate, h⟩ | ⟨imp, hlist, -, hpublic, h⟩ | ⟨imp, -, -, hprivate, h⟩
  · refine ⟨publicElmts m, [], by simp, ?_⟩
    rw [hprivate, h]
    simp [publicElmts]
  · obtain ⟨pre, post, hold, hnew⟩ := publicNames_appendElmt (n := q.name) hlist
    refine ⟨pre, post, hold, ?_⟩
    rw [hpublic, h]
    exact hnew
  · refine ⟨publicElmts m, [], by simp, ?_⟩
    rw [hprivate, h]
    simp

/-- The names that are checked, in two parts between which a new one stands. -/
theorem errChkNames_addPrivateImportElmt (m : Module) (q : ExternalReference) :
    ∃ pre post pre' post', typeNames m = pre ++ post ∧ valueNames m = pre' ++ post' ∧
      typeNames (addPrivateImportElmt m q) =
        (if addsPublic m q = true ∧ q.name.isType = true then pre ++ q.name :: post
          else pre ++ post) ∧
      valueNames (addPrivateImportElmt m q) =
        (if addsPublic m q = true ∧ q.name.isValue = true then pre' ++ q.name :: post'
          else pre' ++ post') := by
  obtain ⟨pre, post, hold, hnew⟩ := publicElmts_addPrivateImportElmt m q
  obtain ⟨-, htypes, hvalues⟩ := addPrivateImportElmt_frame m q
  refine ⟨m.typeDefs.map TypeDef.definedName ++ pre.filter Name.isType, post.filter Name.isType,
    m.valueDefs ++ pre.filter Name.isValue, post.filter Name.isValue, ?_, ?_, ?_, ?_⟩
  · rw [typeNames, hold, List.filter_append, List.append_assoc]
  · rw [valueNames, hold, List.filter_append, List.append_assoc]
  · rw [typeNames, htypes, hnew]
    cases addsPublic m q <;> cases htype : q.name.isType <;> simp [htype]
  · rw [valueNames, hvalues, hnew]
    cases addsPublic m q <;> cases hvalue : q.name.isValue <;> simp [hvalue]

/-- A reference that keeps the scope adds no report. -/
theorem errChkNames_of_keeps {m : Module} {q : ExternalReference} (h : KeepsScope m q) :
    errChkNames (addPrivateImportElmt m q) = errChkNames m := by
  obtain ⟨pre, post, pre', post', ht, hv, ht', hv'⟩ := errChkNames_addPrivateImportElmt m q
  rw [errChkNames, errChkNames, ht', hv']
  congr 1
  · split_ifs with hadds
    · have hnew := ((h hadds.1).1 hadds.2).1
      rw [ht, List.mem_append, not_or] at hnew
      rw [reportDefined_insert (by simp) hnew.1 hnew.2, ht]
    · rw [ht]
  · split_ifs with hadds
    · have hnew := (h hadds.1).2 hadds.2
      rw [hv, List.mem_append, not_or] at hnew
      rw [reportDefined_insert (by simp) hnew.1 hnew.2, hv]
    · rw [hv]

theorem length_reportDefined_le_ite (c : Prop) [Decidable c] (pre post : List Name) (n : Name) :
    (reportDefined [] (pre ++ post)).length ≤
      (reportDefined [] (if c then pre ++ n :: post else pre ++ post)).length := by
  split
  · rw [length_reportDefined_insert]
    omega
  · exact le_rfl

theorem length_errChkNames_le (m : Module) (q : ExternalReference) :
    (errChkNames m).length ≤ (errChkNames (addPrivateImportElmt m q)).length := by
  obtain ⟨pre, post, pre', post', ht, hv, ht', hv'⟩ := errChkNames_addPrivateImportElmt m q
  rw [errChkNames, errChkNames, ht', hv', ht, hv, List.length_append, List.length_append]
  exact Nat.add_le_add (length_reportDefined_le_ite _ pre post q.name)
    (length_reportDefined_le_ite _ pre' post' q.name)

/-- A name that is not new is reported. -/
theorem length_errChkNames_lt {m : Module} {q : ExternalReference} (hadds : addsPublic m q = true)
    (h : q.name.isType = true ∧ q.name ∈ typeNames m ∨
      q.name.isValue = true ∧ q.name ∈ valueNames m) :
    (errChkNames m).length < (errChkNames (addPrivateImportElmt m q)).length := by
  obtain ⟨pre, post, pre', post', ht, hv, ht', hv'⟩ := errChkNames_addPrivateImportElmt m q
  rw [errChkNames, errChkNames, ht', hv', ht, hv, List.length_append, List.length_append]
  rcases h with ⟨htype, hmem⟩ | ⟨hvalue, hmem⟩
  · rw [ht] at hmem
    apply Nat.add_lt_add_of_lt_of_le
    · rw [if_pos ⟨hadds, htype⟩, length_reportDefined_insert, if_pos hmem]
      omega
    · exact length_reportDefined_le_ite _ pre' post' q.name
  · rw [hv] at hmem
    apply Nat.add_lt_add_of_le_of_lt
    · exact length_reportDefined_le_ite _ pre post q.name
    · rw [if_pos ⟨hadds, hvalue⟩, length_reportDefined_insert, if_pos hmem]
      omega

/-! ### All references of a module -/

theorem parseReferences_cons (m : Module) (q : ExternalReference) (qs : List ExternalReference) :
    parseReferences m (q :: qs) = parseReferences (addPrivateImportElmt m q) qs := rfl

theorem parseReferences_frame (m : Module) (qs : List ExternalReference) :
    (parseReferences m qs).modId = m.modId ∧ (parseReferences m qs).typeDefs = m.typeDefs ∧
      (parseReferences m qs).valueDefs = m.valueDefs := by
  induction qs generalizing m with
  | nil => exact ⟨rfl, rfl, rfl⟩
  | cons q qs ih =>
      obtain ⟨hid, htypes, hvalues⟩ := addPrivateImportElmt_frame m q
      rw [parseReferences_cons, ← hid, ← htypes, ← hvalues]
      exact ih _

/-- What holds of the import lists of `m`, which has the IMPORTS clause of `m₀`, as long as
every reference keeps the scope. -/
structure KeptImports (m₀ m : Module) : Prop where
  frame : m.modId = m₀.modId ∧ m.typeDefs = m₀.typeDefs ∧ m.valueDefs = m₀.valueDefs
  /-- What is imported is found, with an import list that imports it. -/
  found : ∀ modId n, n.isType = true → ImportsFrom m₀ modId n →
    ∃ modId', foundIn m n = some (modId', false) ∧ ImportsFrom m₀ modId' n
  /-- Nothing else is found without a private scope, unless a definition stands before it. -/
  only : ∀ modId n, n.isType = true → n ∉ m₀.typeDefs.map TypeDef.definedName →
    foundIn m n = some (modId, false) → ImportsFrom m₀ modId n
  conflicts : errChkNames m = errChkNames m₀

/-- A damage that is done: a conflict too many, or a type that can be found and is not
imported. -/
def Damaged (m₀ m : Module) : Prop :=
  (errChkNames m₀).length < (errChkNames m).length ∨
    ∃ modId n, n.isType = true ∧ n ∉ m₀.typeDefs.map TypeDef.definedName ∧
      foundIn m n = some (modId, false) ∧ ∀ modId', ¬ ImportsFrom m₀ modId' n

/-- A name that is found without the private scope is among the public ones. -/
theorem mem_publicElmts_of_found {m : Module} {n : Name} {modId : ModuleId}
    (h : foundIn m n = some (modId, false)) : n ∈ publicElmts m := by
  rw [foundIn_eq] at h
  rw [publicElmts]
  generalize m.imports = imps at h
  induction imps with
  | nil => simp [foundInLists, lookupImportElmt] at h
  | cons imp imps ih =>
      rw [foundInLists_cons] at h
      rw [List.flatMap_cons, List.filter_append, List.map_append, List.mem_append]
      cases hfind : lookupImportElmtInImportElmtList imp.importElmts n with
      | none =>
          rw [hfind] at h
          exact .inr (ih h)
      | some e =>
          obtain ⟨he, rfl⟩ := name_of_lookupElmt hfind
          have hscope : e.privateScope = false := by
            rw [hfind] at h
            exact congrArg Prod.snd (Option.some.inj h)
          refine .inl (List.mem_map_of_mem (List.mem_filter.2 ⟨he, ?_⟩))
          simp [hscope]

theorem KeptImports.step {m₀ m : Module} (h : KeptImports m₀ m) {q : ExternalReference}
    (hq : KeepsScope m q) : KeptImports m₀ (addPrivateImportElmt m q) where
  frame := by
    obtain ⟨hid, htypes, hvalues⟩ := addPrivateImportElmt_frame m q
    rw [hid, htypes, hvalues]
    exact h.frame
  found := by
    intro modId n htype himports
    obtain ⟨modId', hfound, himports'⟩ := h.found modId n htype himports
    rcases foundIn_addPrivateImportElmt m q n with
      hsame | ⟨-, hnone, -⟩ | ⟨rfl, hadds, hhidden, -⟩
    · exact ⟨modId', hsame.trans hfound, himports'⟩
    · rw [hnone] at hfound
      cases hfound
    · rw [((hq hadds).1 htype).2] at hhidden
      cases hhidden
  only := by
    intro modId n htype hlocal hfound
    rcases foundIn_addPrivateImportElmt m q n with hsame | ⟨-, -, hnew⟩ | ⟨rfl, hadds, hhidden, -⟩
    · exact h.only modId n htype hlocal (hsame.symm.trans hfound)
    · rw [hnew] at hfound
      cases hfound
    · rw [((hq hadds).1 htype).2] at hhidden
      cases hhidden
  conflicts := (errChkNames_of_keeps hq).trans h.conflicts

/-- A reference that does not keep the scope does a damage. -/
theorem KeptImports.damaged {m₀ m : Module} (h : KeptImports m₀ m) {q : ExternalReference}
    (hq : ¬ KeepsScope m q) : Damaged m₀ (addPrivateImportElmt m q) := by
  rw [KeepsScope, Classical.not_imp, not_and_or, Classical.not_imp, Classical.not_imp,
    not_and_or, not_not, not_not] at hq
  obtain ⟨hadds, ⟨htype, hmem | hhidden⟩ | ⟨hvalue, hmem⟩⟩ := hq
  · exact .inl (h.conflicts ▸ length_errChkNames_lt hadds (.inl ⟨htype, hmem⟩))
  · by_cases hmem : q.name ∈ typeNames m
    · exact .inl (h.conflicts ▸ length_errChkNames_lt hadds (.inl ⟨htype, hmem⟩))
    · right
      rw [Bool.not_eq_true] at hhidden
      have hfound : ∃ modId, foundIn (addPrivateImportElmt m q) q.name = some (modId, false) := by
        rcases addPrivateImportElmt_cases m q with
          ⟨-, hnot, -⟩ | ⟨imp, hlist, hnew, -, heq⟩ | ⟨imp, -, -, hnot, -⟩
        · rw [hnot] at hadds
          cases hadds
        · have hplace := @foundInLists_appendElmt _ _ false _ _ hlist hnew
          rw [hidden] at hhidden
          rw [hhidden, if_neg (by decide)] at hplace
          exact ⟨imp.modId, by rw [heq]; exact hplace⟩
        · rw [hnot] at hadds
          cases hadds
      obtain ⟨modId, hfound⟩ := hfound
      refine ⟨modId, q.name, htype, ?_, hfound, ?_⟩
      · intro hlocal
        refine hmem (List.mem_append_left _ ?_)
        rwa [h.frame.2.1]
      · -- what is imported stands among the names that are checked
        intro modId' himports
        obtain ⟨modId'', hold, -⟩ := h.found modId' q.name htype himports
        exact hmem (List.mem_append_right _
          (List.mem_filter.2 ⟨mem_publicElmts_of_found hold, htype⟩))
  · exact .inl (h.conflicts ▸ length_errChkNames_lt hadds (.inr ⟨hvalue, hmem⟩))

/-- Later references do not undo it. -/
theorem Damaged.step {m₀ m : Module} (h : Damaged m₀ m) (q : ExternalReference) :
    Damaged m₀ (addPrivateImportElmt m q) := by
  rcases h with hlt | ⟨modId, n, htype, hlocal, hfound, hnot⟩
  · exact .inl (hlt.trans_le (length_errChkNames_le m q))
  · right
    rcases foundIn_addPrivateImportElmt m q n with hsame | ⟨-, hnone, -⟩ | ⟨rfl, -, -, modId', hnew⟩
    · exact ⟨modId, n, htype, hlocal, hsame.trans hfound, hnot⟩
    · rw [hnone] at hfound
      cases hfound
    · exact ⟨modId', q.name, htype, hlocal, hnew, hnot⟩

theorem Damaged.parse {m₀ m : Module} (h : Damaged m₀ m) (qs : List ExternalReference) :
    Damaged m₀ (parseReferences m qs) := by
  induction qs generalizing m with
  | nil => exact h
  | cons q qs ih => exact ih (h.step q)

/-- The import lists are kept if every reference keeps the scope, and damaged otherwise. -/
theorem KeptImports.parse {m₀ m : Module} (h : KeptImports m₀ m) (qs : List ExternalReference) :
    AllKeepScope m qs ∧ KeptImports m₀ (parseReferences m qs) ∨
      ¬ AllKeepScope m qs ∧ Damaged m₀ (parseReferences m qs) := by
  induction qs generalizing m with
  | nil => exact .inl ⟨trivial, h⟩
  | cons q qs ih =>
      by_cases hq : KeepsScope m q
      · rcases ih (h.step hq) with ⟨hall, hkept⟩ | ⟨hnot, hdamaged⟩
        · exact .inl ⟨⟨hq, hall⟩, hkept⟩
        · exact .inr ⟨fun hall => hnot hall.2, hdamaged⟩
      · exact .inr ⟨fun hall => hq hall.1, (h.damaged hq).parse qs⟩

/-- An IMPORTS clause has no private elements. -/
def PlainImports (m : Module) : Prop :=
  ∀ imp ∈ m.imports, ∀ e ∈ imp.importElmts, e.privateScope = false

theorem foundInLists_of_plain {imps : List ImportModule} {n : Name}
    (hplain : ∀ imp ∈ imps, ∀ e ∈ imp.importElmts, e.privateScope = false) :
    (∀ modId scope, foundInLists n imps = some (modId, scope) →
      ∃ imp ∈ imps, imp.modId = modId ∧ n ∈ namesOf imp) ∧
    ((∃ imp ∈ imps, n ∈ namesOf imp) → ∃ modId, foundInLists n imps = some (modId, false)) := by
  induction imps with
  | nil => simp [foundInLists, lookupImportElmt]
  | cons imp imps ih =>
      obtain ⟨hfirst, hrest⟩ := List.forall_mem_cons.1 hplain
      obtain ⟨ihfound, ihmem⟩ := ih hrest
      rw [foundInLists_cons]
      cases hfind : lookupImportElmtInImportElmtList imp.importElmts n with
      | none =>
          have hnot := lookupElmt_eq_none.1 hfind
          constructor
          · intro modId scope h
            obtain ⟨imp', hmem, heq⟩ := ihfound modId scope h
            exact ⟨imp', List.mem_cons_of_mem _ hmem, heq⟩
          · rintro ⟨imp', hmem, hn⟩
            rcases List.mem_cons.mp hmem with rfl | hmem
            · exact absurd hn hnot
            · exact ihmem ⟨imp', hmem, hn⟩
      | some e =>
          obtain ⟨he, rfl⟩ := name_of_lookupElmt hfind
          constructor
          · intro modId scope h
            exact ⟨imp, by simp, congrArg Prod.fst (Option.some.inj h), List.mem_map_of_mem he⟩
          · intro _
            have hpublic := hfirst e he
            exact ⟨imp.modId, by simp only [hpublic]⟩

theorem keptImports_of_plain {m : Module} (h : PlainImports m) : KeptImports m m where
  frame := ⟨rfl, rfl, rfl⟩
  found := by
    rintro modId n - ⟨imp, hmem, -, hn⟩
    obtain ⟨hfound, hmem'⟩ := foundInLists_of_plain (n := n) h
    obtain ⟨modId', hr⟩ := hmem' ⟨imp, hmem, hn⟩
    obtain ⟨imp', himp', heq, hn'⟩ := hfound modId' false hr
    exact ⟨modId', hr, imp', himp', heq, hn'⟩
  only := by
    intro modId n _ _ hr
    obtain ⟨imp, hmem, heq, hn⟩ := (foundInLists_of_plain (n := n) h).1 modId false hr
    exact ⟨imp, hmem, heq, hn⟩
  conflicts := rfl

/-! ### Qualified references -/

/-- What the first import list of a module name is for, or would be for. -/
def listId (m : Module) (moduleName : Name) : ModuleId :=
  ((lookupImportModule m moduleName).map ImportModule.modId).getD ⟨moduleName, []⟩

/-- The names in the first import list of a module name. -/
def firstNames (m : Module) (moduleName : Name) : List Name :=
  ((lookupImportModule m moduleName).map namesOf).getD []

/-- The first import list of a name after a reference has been entered. -/
theorem lookupImportModule_add (m : Module) (q : ExternalReference) (moduleName : Name) :
    listId (addPrivateImportElmt m q) moduleName = listId m moduleName ∧
      (∀ n ∈ firstNames m moduleName, n ∈ firstNames (addPrivateImportElmt m q) moduleName) ∧
      (moduleName = q.moduleName → q.name ∈ firstNames (addPrivateImportElmt m q) moduleName) := by
  rw [listId, listId, firstNames, firstNames]
  rcases addPrivateImportElmt_cases m q with
    ⟨hnone, -, h⟩ | ⟨imp, hlist, -, -, h⟩ | ⟨imp, hlist, hmem, -, h⟩
  · have hfind : lookupImportModule (addPrivateImportElmt m q) moduleName =
        (lookupImportModule m moduleName).or
          ([⟨⟨q.moduleName, []⟩, [⟨q.name, true⟩]⟩].find? fun imp => imp.modId.name = moduleName) := by
      rw [h]
      exact List.find?_append
    rw [hfind]
    cases hold : lookupImportModule m moduleName with
    | some imp =>
        refine ⟨rfl, fun n hn => hn, ?_⟩
        rintro rfl
        rw [hnone] at hold
        cases hold
    | none =>
        by_cases hsame : q.moduleName = moduleName
        · subst hsame
          simp [namesOf]
        · simp [hsame, Ne.symm hsame]
  · have hfind : lookupImportModule (addPrivateImportElmt m q) moduleName =
        if moduleName = q.moduleName then
          (lookupImportModule m moduleName).map fun imp =>
            { imp with importElmts := imp.importElmts ++ [⟨q.name, false⟩] }
        else lookupImportModule m moduleName := by
      rw [h]
      exact find?_appendElmt q.moduleName moduleName ⟨q.name, false⟩ m.imports
    rw [hfind]
    split_ifs with hsame
    · subst hsame
      rw [hlist]
      refine ⟨rfl, ?_, ?_⟩
      · intro n hn
        exact List.mem_map.2 (by
          obtain ⟨e, he, heq⟩ := List.mem_map.1 hn
          exact ⟨e, List.mem_append_left _ he, heq⟩)
      · simp [namesOf]
    · exact ⟨rfl, fun n hn => hn, fun heq => absurd heq hsame⟩
  · rw [h]
    refine ⟨rfl, fun n hn => hn, ?_⟩
    rintro rfl
    rw [hlist]
    exact hmem

theorem lookupImportModule_parse (m : Module) (qs : List ExternalReference) (moduleName : Name) :
    listId (parseReferences m qs) moduleName = listId m moduleName ∧
      (∀ n ∈ firstNames m moduleName, n ∈ firstNames (parseReferences m qs) moduleName) ∧
      ∀ q ∈ qs, q.moduleName = moduleName →
        q.name ∈ firstNames (parseReferences m qs) moduleName := by
  induction qs generalizing m with
  | nil => exact ⟨rfl, fun n hn => hn, by simp⟩
  | cons q qs ih =>
      obtain ⟨hid, hgrow, hnew⟩ := lookupImportModule_add m q moduleName
      obtain ⟨hid', hgrow', hnew'⟩ := ih (addPrivateImportElmt m q)
      rw [parseReferences_cons]
      refine ⟨hid'.trans hid, fun n hn => hgrow' n (hgrow n hn), ?_⟩
      intro q' hmem heq
      rcases List.mem_cons.mp hmem with rfl | hmem
      · exact hgrow' _ (hnew heq.symm)
      · exact hnew' q' hmem heq

/-- Linked import lists resolve what is in them. -/
theorem resolvedRef_of_linked {ms : List Module} {m : Module} (h : ImportsLinked ms m)
    {imp : ImportModule} (himp : imp ∈ m.imports) {n : Name} (hn : n ∈ namesOf imp)
    (htype : n.isType = true) : ∃ r, resolvedRef ms imp.modId n = some r := by
  obtain ⟨impRefMod, hmod, helmts⟩ := h imp himp
  obtain ⟨e, he, rfl⟩ := List.mem_map.1 hn
  obtain ⟨td, htd, -⟩ := helmts e he htype
  exact ⟨(impRefMod, td), by rw [resolvedRef, hmod]; simp [htd]⟩

theorem qualified_resolves {ms : List Module} {m : Module} {qs : List ExternalReference}
    (h : ImportsLinked ms (parseReferences m qs)) {q : ExternalReference} (hq : q ∈ qs)
    (htype : q.name.isType = true) :
    ∃ r, linkImportTypeRef ms (parseReferences m qs) q = some r ∧
      resolvedRef ms (listId m q.moduleName) q.name = some r := by
  obtain ⟨hid, -, hnew⟩ := lookupImportModule_parse m qs q.moduleName
  have hmem := hnew q hq rfl
  rw [firstNames] at hmem
  rw [listId] at hid
  cases hlist : lookupImportModule (parseReferences m qs) q.moduleName with
  | none => simp [hlist] at hmem
  | some imp =>
      have hname : q.name ∈ namesOf imp := by simpa [hlist] using hmem
      have himp : imp ∈ (parseReferences m qs).imports := List.mem_of_find?_eq_some hlist
      obtain ⟨r, hr⟩ := resolvedRef_of_linked h himp hname htype
      have hsame : imp.modId = listId m q.moduleName := by simpa [hlist] using hid
      refine ⟨r, ?_, hsame ▸ hr⟩
      rw [linkImportTypeRef, hlist]
      cases helmt : lookupImportElmtInImportElmtList imp.importElmts q.name with
      | none => exact absurd hname (lookupElmt_eq_none.1 helmt)
      | some e =>
          obtain ⟨-, heq⟩ := name_of_lookupElmt helmt
          simp only [helmt, heq]
          exact hr

/-! ### The references of a module -/

theorem lookupType_eq_none {typeDefs : List TypeDef} {n : Name} :
    lookupType typeDefs n = none ↔ n ∉ typeDefs.map TypeDef.definedName := by
  rw [lookupType, List.find?_eq_none]
  simp

/-- An unqualified reference to a name that the module does not define. -/
theorem linkLocalTypeRef_of_foreign {ms : List Module} {m : Module} {n : Name}
    (hlocal : n ∉ m.typeDefs.map TypeDef.definedName) :
    linkLocalTypeRef ms m n =
      match foundIn m n with
      | some (modId, scope) => if scope then none else resolvedRef ms modId n
      | none => none := by
  rw [linkLocalTypeRef, lookupType_eq_none.2 hlocal, foundIn]
  cases lookupImportElmtInModule m n <;> rfl

/-- What is found without a private scope can be linked to. -/
theorem exists_resolvedRef_of_found {ms : List Module} {m : Module} (h : ImportsLinked ms m)
    {n : Name} {modId : ModuleId} {scope : Bool} (htype : n.isType = true)
    (hfound : foundIn m n = some (modId, scope)) : ∃ r, resolvedRef ms modId n = some r := by
  have hmem : ∃ imp ∈ m.imports, imp.modId = modId ∧ n ∈ namesOf imp := by
    rw [foundIn_eq] at hfound
    generalize m.imports = imps at hfound
    clear h
    induction imps with
    | nil => simp [foundInLists, lookupImportElmt] at hfound
    | cons imp imps ih =>
        rw [foundInLists_cons] at hfound
        cases hfind : lookupImportElmtInImportElmtList imp.importElmts n with
        | none =>
            rw [hfind] at hfound
            obtain ⟨imp', himp', heq⟩ := ih hfound
            exact ⟨imp', List.mem_cons_of_mem _ himp', heq⟩
        | some e =>
            obtain ⟨he, rfl⟩ := name_of_lookupElmt hfind
            rw [hfind] at hfound
            exact ⟨imp, by simp, congrArg Prod.fst (Option.some.inj hfound),
              List.mem_map_of_mem he⟩
  obtain ⟨imp, himp, rfl, hn⟩ := hmem
  exact resolvedRef_of_linked h himp hn htype

theorem KeptImports.resolves {ms : List Module} {m : Module} {qs : List ExternalReference}
    (h : KeptImports m (parseReferences m qs))
    (hlinked : ImportsLinked ms (parseReferences m qs)) : ResolvesImports ms m qs where
  defined := by
    intro n hn
    cases htd : lookupType m.typeDefs n with
    | none => exact absurd hn (lookupType_eq_none.1 htd)
    | some td =>
        have hname : td.definedName = n := by simpa using List.find?_some htd
        refine ⟨td, List.mem_of_find?_eq_some htd, hname, ?_⟩
        rw [linkLocalTypeRef, h.frame.2.1, htd]
  imported := by
    intro n htype hlocal r hr
    rw [linkLocalTypeRef_of_foreign (by rwa [h.frame.2.1])] at hr
    cases hfound : foundIn (parseReferences m qs) n with
    | none => simp [hfound] at hr
    | some p =>
        obtain ⟨modId, scope⟩ := p
        rw [hfound] at hr
        cases scope with
        | true => cases hr
        | false => exact ⟨modId, h.only modId n htype hlocal hfound, hr⟩
  found := by
    rintro n htype ⟨modId, himports⟩
    by_cases hlocal : n ∈ m.typeDefs.map TypeDef.definedName
    · cases htd : lookupType m.typeDefs n with
      | none => exact absurd hlocal (lookupType_eq_none.1 htd)
      | some td => exact ⟨_, by rw [linkLocalTypeRef, h.frame.2.1, htd]⟩
    · obtain ⟨modId', hfound, -⟩ := h.found modId n htype himports
      obtain ⟨r, hr⟩ := exists_resolvedRef_of_found hlinked htype hfound
      refine ⟨r, ?_⟩
      rw [linkLocalTypeRef_of_foreign (by rwa [h.frame.2.1]), hfound]
      exact hr
  qualified := fun q hq htype => qualified_resolves hlinked hq htype
  conflicts := h.conflicts

theorem Damaged.not_resolves {ms : List Module} {m : Module} {qs : List ExternalReference}
    (h : Damaged m (parseReferences m qs))
    (hlinked : ImportsLinked ms (parseReferences m qs)) : ¬ ResolvesImports ms m qs := by
  intro hres
  rcases h with hlt | ⟨modId, n, htype, hlocal, hfound, hnot⟩
  · rw [hres.conflicts] at hlt
    exact lt_irrefl _ hlt
  · obtain ⟨r, hr⟩ := exists_resolvedRef_of_found hlinked htype hfound
    have hlink : linkLocalTypeRef ms (parseReferences m qs) n = some r := by
      rw [linkLocalTypeRef_of_foreign (by rwa [(parseReferences_frame m qs).2.1]), hfound]
      exact hr
    obtain ⟨modId', himports, -⟩ := hres.imported n htype hlocal r hlink
    exact hnot modId' himports

/-- References are resolved as they should be, and no conflict is added, exactly if every
qualified reference keeps the scope. -/
theorem resolvesImports_iff (ms : List Module) (m : Module) (qs : List ExternalReference)
    (hplain : PlainImports m) (hlinked : ImportsLinked ms (parseReferences m qs)) :
    ResolvesImports ms m qs ↔ AllKeepScope m qs := by
  rcases (keptImports_of_plain hplain).parse qs with ⟨hall, hkept⟩ | ⟨hnot, hdamaged⟩
  · exact iff_of_true (hkept.resolves hlinked) hall
  · exact iff_of_false (hdamaged.not_resolves hlinked) hnot

/-- A module `A` that exports `T` and `U`. -/
def exporting : Module := ⟨⟨['A'], []⟩, [⟨['T'], true⟩, ⟨['U'], true⟩], [], []⟩

/-- A module that defines `T` and imports `U FROM A`, with the import lists as given. -/
def importing (imports : List ImportModule) : Module :=
  ⟨⟨['M'], []⟩, [⟨['T'], false⟩], [], imports⟩

theorem importing_resolvesImports_iff :
    ResolvesImports [exporting] (importing []) [⟨['A'], ['T']⟩] ↔
      AllKeepScope (importing []) [⟨['A'], ['T']⟩] := by
  apply resolvesImports_iff
  · intro imp himp
    cases himp
  · intro imp himp
    obtain rfl := List.mem_singleton.1 himp
    refine ⟨exporting, by decide, ?_⟩
    intro e he _
    obtain rfl := List.mem_singleton.1 he
    exact ⟨⟨['T'], true⟩, by decide, rfl⟩

/-- `A.T` is taken for a second definition of `T` if `U` is imported from `A`. -/
theorem not_resolvesImports : ¬ ∀ ms m qs, PlainImports m →
    ImportsLinked ms (parseReferences m qs) → ResolvesImports ms m qs := by
  intro h
  have hres := h [exporting] (importing [⟨⟨['A'], []⟩, [⟨['U'], false⟩]⟩]) [⟨['A'], ['T']⟩]
    (by simp [PlainImports, importing]) (by
      intro imp himp
      obtain rfl := List.mem_singleton.1 himp
      refine ⟨exporting, by decide, ?_⟩
      intro e he _
      rcases List.mem_cons.1 he with rfl | he
      · exact ⟨⟨['U'], true⟩, by decide, rfl⟩
      · obtain rfl := List.mem_singleton.1 he
        exact ⟨⟨['T'], true⟩, by decide, rfl⟩)
  exact absurd hres.conflicts (by decide)

end Esnacc.Compiler
