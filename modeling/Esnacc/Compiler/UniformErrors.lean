import Mathlib

/-!
The check that all operations declare the same error. What has been seen is one text of choice ids
and names, in which a further error is looked for with `strstr`.
-/

namespace Esnacc.Compiler.UniformErrors

variable {κ : Type}

/-- A basic type; `κ` are the definitions of types. -/
inductive BasicType (κ : Type)
  | other (choiceId : ℕ)
  | localTypeRef (typeName : List Char) (link : κ)
  | importTypeRef (typeName : List Char) (link : κ)

inductive TypeOrValue (κ : Type)
  | type (basicType : BasicType κ)
  | value

/-- The type of a value, as far as it is asked for; `rosOperation` has the errors. -/
inductive ValueType (κ : Type)
  | missing
  | other
  | otherMacro
  | rosOperation (errors : Option (List (TypeOrValue κ)))

structure ValueDef (κ : Type) where
  definedName : List Char
  type : ValueType κ

structure Module (κ : Type) where
  moduleName : List Char
  importedFlag : Bool
  valueDefs : List (ValueDef κ)

structure OperationComment where
  i64Deprecated : ℤ
  iIgnoreValidation : ℕ

/-- What the checks look up: the definitions, the comments and an option. -/
structure Context (κ : Type) where
  definition : κ → BasicType κ
  operationComment : (moduleName operationName : List Char) → Option OperationComment
  gi64NoDeprecatedSymbols : ℤ

namespace Context

variable (ctx : Context κ)

def isDeprecatedNoOutput (i64DeprecatedValue : ℤ) : Bool :=
  if ctx.gi64NoDeprecatedSymbols = 0 ∨ i64DeprecatedValue = 0 then false
  else if ctx.gi64NoDeprecatedSymbols = 1 then true
  else ctx.gi64NoDeprecatedSymbols ≥ i64DeprecatedValue

def isROSEValueDef (mod : Module κ) (vd : ValueDef κ) : Bool :=
  match vd.type with
  | .rosOperation operation =>
      if ctx.gi64NoDeprecatedSymbols ≠ 0 then
        operation.isSome && (ctx.operationComment mod.moduleName vd.definedName).all
          fun com => !ctx.isDeprecatedNoOutput com.i64Deprecated
      else true
  | _ => false

def hasROSEOperations (mod : Module κ) : Bool := mod.valueDefs.any (ctx.isROSEValueDef mod)

/-- `SNACC_VAL_UNIFORM_OPERATION_ERROR`. -/
def uniformOperationError : ℕ := 4

def isValidationExemptOperation (mod : Module κ) (szOperationName : List Char)
    (validationCheck : ℕ) : Bool :=
  (ctx.operationComment mod.moduleName szOperationName).any fun comment =>
    comment.i64Deprecated ≠ 0 || comment.iIgnoreValidation &&& validationCheck ≠ 0

/-- `ResolveTypeReferencesOneLevel`, for a reference. -/
def resolveOneLevel : BasicType κ → Option (List Char × BasicType κ)
  | .other _ => none
  | .localTypeRef typeName link => some (typeName, ctx.definition link)
  | .importTypeRef typeName link => some (typeName, ctx.definition link)

/-- The name and the type of the error that `GetROSEDetails` finds: the first one, if it is a
reference. -/
def errorDetails (mod : Module κ) (vd : ValueDef κ) : Option (List Char × BasicType κ) :=
  if ctx.isROSEValueDef mod vd then
    match vd.type with
    | .rosOperation (some (.type first :: _)) => ctx.resolveOneLevel first
    | _ => none
  else none

/-- The choice id behind all references, if they come to an end. -/
def resolveBasicTypeReferences : ℕ → BasicType κ → Option ℕ
  | _, .other choiceId => some choiceId
  | 0, _ => none
  | fuel + 1, .localTypeRef _ link => resolveBasicTypeReferences fuel (ctx.definition link)
  | fuel + 1, .importTypeRef _ link => resolveBasicTypeReferences fuel (ctx.definition link)

end Context

/-- What `"%i:%s"` prints into a buffer of 512. -/
def szBuffer (choiceId : ℕ) (pszError : List Char) : List Char :=
  (Nat.toDigits 10 choiceId ++ ':' :: pszError).take 511

/-- The types that have been seen, and how many were not there when they came. -/
structure Seen where
  szErrorTypes : Option (List Char)
  nWeHaveErrors : ℕ

def Seen.add (seen : Seen) (szBuffer : List Char) : Seen :=
  match seen.szErrorTypes with
  | none => { seen with szErrorTypes := some szBuffer }
  | some szErrorTypes =>
      if szBuffer <:+: szErrorTypes then seen
      else ⟨some (szErrorTypes ++ ' ' :: szBuffer), seen.nWeHaveErrors + 1⟩

namespace Context

variable (ctx : Context κ)

/-- The inner loop, for a value definition. -/
def checkValueDef (fuel : ℕ) (mod : Module κ) (seen : Seen) (vd : ValueDef κ) : Option Seen :=
  if !ctx.isROSEValueDef mod vd then some seen
  else if ctx.isValidationExemptOperation mod vd.definedName uniformOperationError then some seen
  else
    match ctx.errorDetails mod vd with
    | none => some seen
    | some (pszError, errorType) =>
        (ctx.resolveBasicTypeReferences fuel errorType).map fun choiceId =>
          seen.add (szBuffer choiceId pszError)

def checkModule (fuel : ℕ) (seen : Seen) (currMod : Module κ) : Option Seen :=
  if !currMod.importedFlag && ctx.hasROSEOperations currMod then
    currMod.valueDefs.foldlM (ctx.checkValueDef fuel currMod) seen
  else some seen

/-- There is no result if the references of an error do not end with the fuel. -/
def validateErrorsAreOfSameType (fuel : ℕ) (allMods : List (Module κ)) : Option Bool :=
  (allMods.foldlM (ctx.checkModule fuel) ⟨none, 0⟩).map fun seen => seen.nWeHaveErrors = 0

end Context

/-! ### What the check should tell -/

section Spec

variable (ctx : Context κ)

/-- The error that counts: that of an operation that is not exempt. -/
def declaredError (mod : Module κ) (vd : ValueDef κ) : Option (List Char × BasicType κ) :=
  if ctx.isValidationExemptOperation mod vd.definedName Context.uniformOperationError then none
  else ctx.errorDetails mod vd

def declaredErrors (allMods : List (Module κ)) : List (List Char × BasicType κ) :=
  allMods.flatMap fun mod =>
    if mod.importedFlag then [] else mod.valueDefs.filterMap (declaredError ctx mod)

def ResolvesTo (basicType : BasicType κ) (choiceId : ℕ) : Prop :=
  ∃ fuel, ctx.resolveBasicTypeReferences fuel basicType = some choiceId

/-- All errors have the same name and the same resolved basic type. -/
def SameErrors (allMods : List (Module κ)) : Prop :=
  ∀ e ∈ declaredErrors ctx allMods, ∀ e' ∈ declaredErrors ctx allMods,
    e.1 = e'.1 ∧ ∃ choiceId, ResolvesTo ctx e.2 choiceId ∧ ResolvesTo ctx e'.2 choiceId

/-- The check ends and tells whether the errors are the same. -/
def ValidatesExactly (allMods : List (Module κ)) : Prop :=
  ∃ fuel b, ctx.validateErrorsAreOfSameType fuel allMods = some b ∧
    (b = true ↔ SameErrors ctx allMods)

/-- The errors with their choice ids. -/
def Entries (errors : List (List Char × BasicType κ)) (entries : List (ℕ × List Char)) : Prop :=
  List.Forall₂ (fun e entry => ResolvesTo ctx e.2 entry.1 ∧ entry.2 = e.1) errors entries

end Spec

def bufferOf (entry : ℕ × List Char) : List Char := szBuffer entry.1 entry.2

/-- If the texts of all errors are in that of the first one, they are all the same. -/
def Telling : List (ℕ × List Char) → Prop
  | [] => True
  | first :: rest => (∀ entry ∈ rest, bufferOf entry <:+: bufferOf first) →
      ∀ entry ∈ rest, entry = first

/-! ### What has been seen -/

theorem le_foldl_add (seen : Seen) (texts : List (List Char)) :
    seen.nWeHaveErrors ≤ (texts.foldl Seen.add seen).nWeHaveErrors := by
  induction texts generalizing seen with
  | nil => exact Nat.le_refl _
  | cons text texts ih =>
      refine Nat.le_trans ?_ (ih _)
      rw [Seen.add]
      split
      · exact Nat.le_refl _
      · split
        · exact Nat.le_refl _
        · exact Nat.le_succ _

/-- There is no error as long as everything is in the first text. -/
theorem foldl_add_eq_zero (szErrorTypes : List Char) (texts : List (List Char)) :
    (texts.foldl Seen.add ⟨some szErrorTypes, 0⟩).nWeHaveErrors = 0 ↔
      ∀ text ∈ texts, text <:+: szErrorTypes := by
  induction texts with
  | nil => exact iff_of_true rfl nofun
  | cons text texts ih =>
      rw [List.foldl_cons, List.forall_mem_cons]
      by_cases hin : text <:+: szErrorTypes
      · have hadd : Seen.add ⟨some szErrorTypes, 0⟩ text = ⟨some szErrorTypes, 0⟩ := if_pos hin
        rw [hadd, ih, and_iff_right hin]
      · have hadd : Seen.add ⟨some szErrorTypes, 0⟩ text =
            ⟨some (szErrorTypes ++ ' ' :: text), 1⟩ := if_neg hin
        -- an error that has been counted stays counted
        have hle := le_foldl_add ⟨some (szErrorTypes ++ ' ' :: text), 1⟩ texts
        rw [hadd]
        exact iff_of_false (Nat.ne_of_gt hle) fun h => hin h.1

def Passes (entries : List (ℕ × List Char)) : Prop :=
  ((entries.map bufferOf).foldl Seen.add ⟨none, 0⟩).nWeHaveErrors = 0

instance (entries : List (ℕ × List Char)) : Decidable (Passes entries) :=
  inferInstanceAs (Decidable (_ = _))

theorem passes_cons (first : ℕ × List Char) (rest : List (ℕ × List Char)) :
    Passes (first :: rest) ↔ ∀ entry ∈ rest, bufferOf entry <:+: bufferOf first := by
  have hfold : Passes (first :: rest) ↔
      ((rest.map bufferOf).foldl Seen.add ⟨some (bufferOf first), 0⟩).nWeHaveErrors = 0 := Iff.rfl
  rw [hfold, foldl_add_eq_zero]
  simp only [List.mem_map, forall_exists_index, and_imp, forall_apply_eq_imp_iff₂]

/-- Equal entries pass; the check tells no more and no less if what passes is equal. -/
theorem telling_iff (entries : List (ℕ × List Char)) :
    Telling entries ↔
      (Passes entries ↔ ∀ entry ∈ entries, ∀ entry' ∈ entries, entry = entry') := by
  cases entries with
  | nil => exact iff_of_true trivial (iff_of_true rfl nofun)
  | cons first rest =>
      have hall : (∀ entry ∈ first :: rest, ∀ entry' ∈ first :: rest, entry = entry') ↔
          ∀ entry ∈ rest, entry = first := by
        constructor
        · exact fun h entry hentry => h entry (List.mem_cons_of_mem _ hentry) first
            List.mem_cons_self
        · intro h
          have hfirst : ∀ entry ∈ first :: rest, entry = first :=
            List.forall_mem_cons.mpr ⟨rfl, h⟩
          exact fun entry hentry entry' hentry' =>
            (hfirst entry hentry).trans (hfirst entry' hentry').symm
      rw [hall, passes_cons, Telling]
      constructor
      · intro h
        refine ⟨h, fun hsame entry hentry => ?_⟩
        rw [hsame entry hentry]
      · exact fun h => h.mp

/-! ### The loops -/

section Loops

variable (ctx : Context κ)

/-- The errors with their choice ids, as far as the fuel goes. -/
def entriesOf (fuel : ℕ) : List (List Char × BasicType κ) → Option (List (ℕ × List Char))
  | [] => some []
  | e :: errors =>
      (ctx.resolveBasicTypeReferences fuel e.2).bind fun choiceId =>
        (entriesOf fuel errors).map ((choiceId, e.1) :: ·)

theorem checkValueDef_eq (fuel : ℕ) (mod : Module κ) (seen : Seen) (vd : ValueDef κ) :
    ctx.checkValueDef fuel mod seen vd =
      (entriesOf ctx fuel (declaredError ctx mod vd).toList).map fun entries =>
        (entries.map bufferOf).foldl Seen.add seen := by
  rw [Context.checkValueDef, declaredError]
  by_cases hrose : ctx.isROSEValueDef mod vd = true
  · rw [hrose]
    by_cases hexempt : ctx.isValidationExemptOperation mod vd.definedName
        Context.uniformOperationError = true
    · simp [hexempt, entriesOf]
    · cases herror : ctx.errorDetails mod vd with
      | none => simp [hexempt, entriesOf]
      | some e =>
          cases hresolve : ctx.resolveBasicTypeReferences fuel e.2 <;>
            simp [hexempt, entriesOf, hresolve, bufferOf]
  · have hnone : ctx.errorDetails mod vd = none := by
      rw [Context.errorDetails, if_neg hrose]
    simp [hrose, hnone, entriesOf]

theorem entriesOf_append (fuel : ℕ) (errors errors' : List (List Char × BasicType κ)) :
    entriesOf ctx fuel (errors ++ errors') =
      (entriesOf ctx fuel errors).bind fun entries =>
        (entriesOf ctx fuel errors').map (entries ++ ·) := by
  induction errors with
  | nil => simp [entriesOf]
  | cons e errors ih =>
      rw [List.cons_append, entriesOf, entriesOf, ih]
      cases ctx.resolveBasicTypeReferences fuel e.2 with
      | none => rfl
      | some choiceId =>
          cases entriesOf ctx fuel errors with
          | none => rfl
          | some entries => cases entriesOf ctx fuel errors' <;> rfl

/-- A loop whose passes add the entries of something adds the entries of all. -/
theorem foldlM_entriesOf {α : Type} (fuel : ℕ) (check : Seen → α → Option Seen)
    (errorsOf : α → List (List Char × BasicType κ))
    (h : ∀ seen a, check seen a = (entriesOf ctx fuel (errorsOf a)).map fun entries =>
      (entries.map bufferOf).foldl Seen.add seen) (l : List α) (seen : Seen) :
    l.foldlM check seen = (entriesOf ctx fuel (l.flatMap errorsOf)).map fun entries =>
      (entries.map bufferOf).foldl Seen.add seen := by
  induction l generalizing seen with
  | nil => rfl
  | cons a l ih =>
      rw [List.foldlM_cons, h, List.flatMap_cons, entriesOf_append]
      cases entriesOf ctx fuel (errorsOf a) with
      | none => rfl
      | some entries =>
          rw [Option.map_some, Option.bind_eq_bind, Option.bind_some, ih, Option.bind_some]
          cases entriesOf ctx fuel (l.flatMap errorsOf) with
          | none => rfl
          | some entries' => simp

theorem checkModule_eq (fuel : ℕ) (seen : Seen) (mod : Module κ) :
    ctx.checkModule fuel seen mod =
      (entriesOf ctx fuel (if mod.importedFlag then [] else
        mod.valueDefs.filterMap (declaredError ctx mod))).map fun entries =>
          (entries.map bufferOf).foldl Seen.add seen := by
  have hflat : mod.valueDefs.filterMap (declaredError ctx mod) =
      mod.valueDefs.flatMap fun vd => (declaredError ctx mod vd).toList :=
    List.filterMap_eq_flatMap_toList _ _
  rw [Context.checkModule]
  cases himported : mod.importedFlag with
  | true => simp [entriesOf]
  | false =>
      by_cases hops : ctx.hasROSEOperations mod = true
      · simp only [hops, hflat, Bool.not_false, Bool.and_self, if_true, Bool.false_eq_true,
          if_false]
        exact foldlM_entriesOf ctx fuel _ _ (checkValueDef_eq ctx fuel mod) _ _
      · have hnone : mod.valueDefs.filterMap (declaredError ctx mod) = [] := by
          rw [List.filterMap_eq_nil_iff]
          intro vd hvd
          have hnot : ¬ ctx.isROSEValueDef mod vd = true := fun h =>
            hops (List.any_eq_true.mpr ⟨vd, hvd, h⟩)
          rw [declaredError, Context.errorDetails, if_neg hnot, ite_self]
        simp [hops, hnone, entriesOf]

theorem validate_eq (fuel : ℕ) (allMods : List (Module κ)) :
    ctx.validateErrorsAreOfSameType fuel allMods =
      (entriesOf ctx fuel (declaredErrors ctx allMods)).map fun entries =>
        decide (Passes entries) := by
  rw [Context.validateErrorsAreOfSameType,
    foldlM_entriesOf ctx fuel _ _ (checkModule_eq ctx fuel), Option.map_map]
  rfl

/-! ### The main result -/

theorem resolve_mono {fuel fuel' : ℕ} (hle : fuel ≤ fuel') {basicType : BasicType κ}
    {choiceId : ℕ} (h : ctx.resolveBasicTypeReferences fuel basicType = some choiceId) :
    ctx.resolveBasicTypeReferences fuel' basicType = some choiceId := by
  induction fuel generalizing fuel' basicType with
  | zero =>
      cases basicType with
      | other choiceId' => simpa [Context.resolveBasicTypeReferences] using h
      | localTypeRef _ _ => cases h
      | importTypeRef _ _ => cases h
  | succ fuel ih =>
      cases basicType with
      | other choiceId' => simpa [Context.resolveBasicTypeReferences] using h
      | localTypeRef _ link | importTypeRef _ link =>
          obtain ⟨fuel', rfl⟩ := Nat.exists_eq_succ_of_ne_zero (Nat.ne_zero_of_lt hle)
          exact ih (Nat.le_of_succ_le_succ hle) h

variable {ctx}

theorem ResolvesTo.unique {basicType : BasicType κ} {choiceId choiceId' : ℕ}
    (h : ResolvesTo ctx basicType choiceId) (h' : ResolvesTo ctx basicType choiceId') :
    choiceId = choiceId' := by
  obtain ⟨fuel, hfuel⟩ := h
  obtain ⟨fuel', hfuel'⟩ := h'
  have hsame := (resolve_mono ctx (le_max_left fuel fuel') hfuel).symm.trans
    (resolve_mono ctx (le_max_right fuel fuel') hfuel')
  exact Option.some_inj.mp hsame

theorem entriesOf_mono {fuel fuel' : ℕ} (hle : fuel ≤ fuel')
    {errors : List (List Char × BasicType κ)} {entries : List (ℕ × List Char)}
    (h : entriesOf ctx fuel errors = some entries) :
    entriesOf ctx fuel' errors = some entries := by
  induction errors generalizing entries with
  | nil => exact h
  | cons e errors ih =>
      rw [entriesOf, Option.bind_eq_some_iff] at h
      obtain ⟨choiceId, hresolve, h⟩ := h
      obtain ⟨rest, hrest, rfl⟩ := Option.map_eq_some_iff.mp h
      rw [entriesOf, resolve_mono ctx hle hresolve, Option.bind_some, ih hrest, Option.map_some]

theorem entries_iff {errors : List (List Char × BasicType κ)} {entries : List (ℕ × List Char)} :
    Entries ctx errors entries ↔ ∃ fuel, entriesOf ctx fuel errors = some entries := by
  constructor
  · intro h
    induction h with
    | nil => exact ⟨0, rfl⟩
    | @cons e entry errors entries hentry _ ih =>
        obtain ⟨⟨fuel, hfuel⟩, hname⟩ := hentry
        obtain ⟨fuel', hfuel'⟩ := ih
        refine ⟨max fuel fuel', ?_⟩
        rw [entriesOf, resolve_mono ctx (le_max_left fuel fuel') hfuel, Option.bind_some,
          entriesOf_mono (le_max_right fuel fuel') hfuel', Option.map_some, ← hname]
  · rintro ⟨fuel, h⟩
    induction errors generalizing entries with
    | nil =>
        cases h
        exact List.Forall₂.nil
    | cons e errors ih =>
        rw [entriesOf, Option.bind_eq_some_iff] at h
        obtain ⟨choiceId, hresolve, h⟩ := h
        obtain ⟨rest, hrest, rfl⟩ := Option.map_eq_some_iff.mp h
        exact List.Forall₂.cons ⟨⟨fuel, hresolve⟩, rfl⟩ (ih hrest)

theorem exists_of_forall₂ {α β : Type} {R : α → β → Prop} {l : List α} {l' : List β}
    (h : List.Forall₂ R l l') {a : α} (ha : a ∈ l) : ∃ b ∈ l', R a b := by
  induction h with
  | nil => cases ha
  | @cons a' b' l l' hab _ ih =>
      rcases List.mem_cons.mp ha with rfl | ha
      · exact ⟨b', List.mem_cons_self, hab⟩
      · obtain ⟨b, hb, hab⟩ := ih ha
        exact ⟨b, List.mem_cons_of_mem _ hb, hab⟩

/-- Errors are the same if their entries are. -/
theorem Entries.sameErrors {allMods : List (Module κ)} {entries : List (ℕ × List Char)}
    (h : Entries ctx (declaredErrors ctx allMods) entries) :
    SameErrors ctx allMods ↔ ∀ entry ∈ entries, ∀ entry' ∈ entries, entry = entry' := by
  constructor
  · intro hsame entry hentry entry' hentry'
    obtain ⟨e, he, hresolve, hname⟩ := exists_of_forall₂ h.flip hentry
    obtain ⟨e', he', hresolve', hname'⟩ := exists_of_forall₂ h.flip hentry'
    obtain ⟨heq, choiceId, hchoice, hchoice'⟩ := hsame e he e' he'
    refine Prod.ext ?_ (by rw [hname, hname', heq])
    rw [hresolve.unique hchoice, hresolve'.unique hchoice']
  · intro hsame e he e' he'
    obtain ⟨entry, hentry, hresolve, hname⟩ := exists_of_forall₂ h he
    obtain ⟨entry', hentry', hresolve', hname'⟩ := exists_of_forall₂ h he'
    obtain rfl := hsame entry hentry entry' hentry'
    exact ⟨hname.symm.trans hname', entry.1, hresolve, hresolve'⟩

theorem uniformErrors_exact (ctx : Context κ) (allMods : List (Module κ)) :
    ValidatesExactly ctx allMods ↔
      ∃ entries, Entries ctx (declaredErrors ctx allMods) entries ∧ Telling entries := by
  constructor
  · rintro ⟨fuel, b, hvalidate, hb⟩
    rw [validate_eq, Option.map_eq_some_iff] at hvalidate
    obtain ⟨entries, hentries, rfl⟩ := hvalidate
    have hall := entries_iff.mpr ⟨fuel, hentries⟩
    refine ⟨entries, hall, (telling_iff entries).mpr ?_⟩
    rw [← hall.sameErrors, ← hb, decide_eq_true_eq]
  · rintro ⟨entries, hall, htelling⟩
    obtain ⟨fuel, hentries⟩ := entries_iff.mp hall
    refine ⟨fuel, decide (Passes entries), by rw [validate_eq, hentries, Option.map_some], ?_⟩
    rw [hall.sameErrors, ← (telling_iff entries).mp htelling, decide_eq_true_eq]

end Loops

/-- Two operations with a SEQUENCE as error, where one name is the beginning of the other. -/
def prefixNames : List (Module Unit) :=
  [⟨['M'], false,
    [⟨['a'], .rosOperation (some [.type (.localTypeRef ['E', '2'] ())])⟩,
      ⟨['b'], .rosOperation (some [.type (.localTypeRef ['E'] ())])⟩]⟩]

def plainContext : Context Unit := ⟨fun _ => .other 9, fun _ _ => none, 0⟩

/-- The check passes, and the names differ. -/
theorem not_validatesExactly :
    ¬ ∀ (ctx : Context Unit) (allMods : List (Module Unit)), ValidatesExactly ctx allMods := by
  intro h
  obtain ⟨fuel, b, hvalidate, hb⟩ := h plainContext prefixNames
  have hdeclared : declaredErrors plainContext prefixNames =
      [(['E', '2'], .other 9), (['E'], .other 9)] := rfl
  have hentries : entriesOf plainContext fuel [(['E', '2'], .other 9), (['E'], .other 9)] =
      some [(9, ['E', '2']), (9, ['E'])] := by
    cases fuel <;> rfl
  have hpasses : Passes [(9, ['E', '2']), (9, ['E'])] := by
    rw [passes_cons]
    decide
  rw [validate_eq, hdeclared, hentries, Option.map_some, Option.some_inj,
    decide_eq_true hpasses] at hvalidate
  have hsame := hb.mp hvalidate.symm
  rw [SameErrors, hdeclared] at hsame
  have hnames := (hsame (['E', '2'], .other 9) (by simp) (['E'], .other 9) (by simp)).1
  cases hnames

end Esnacc.Compiler.UniformErrors
