import Esnacc.Lib.MarkedLog
import Esnacc.Ts.BerConverter

/-!
What the converters do to the list of errors, step by step: a call sets the mark, and a check that
fails records an error. The steps of a call can be told from its input alone (`encodeSteps`,
`decodeSteps`, `encodeBerSteps`, `decodeBerSteps`), and each statement that ends has followed them.
-/

namespace Esnacc.Ts

open MarkedLog

def ConverterErrors.tally (c : ConverterErrors) : Tally :=
  ⟨c.errors.length, c.lastStoredErrorCount, c.elsewhere.length⟩

namespace JsValue

/-- The member of a name, and `undefined` where there is none. -/
def member (s : JsValue) (name : String) : JsValue :=
  match s with
  | object get => get name
  | _ => undefined

/-- What a loop goes through, and nothing where it throws. -/
def elements (s : JsValue) : List JsValue :=
  match s.iterate with
  | .ok elements => elements
  | .error _ => []

theorem member_of_property {s v : JsValue} {name : String} (h : s.property name = .ok v) :
    s.member name = v := by
  cases s <;> first | exact Except.ok.inj h | cases h

theorem elements_of_iterate {s : JsValue} {vs : List JsValue} (h : s.iterate = .ok vs) :
    s.elements = vs := by
  rw [elements, h]

theorem truthy_set {t : JsValue} (ht : t.truthy = true) (name : String) (value : JsValue) :
    (t.set name value).truthy = true := by
  cases t <;> first | rfl | exact ht

end JsValue

namespace Converter

/-! ### Following steps -/

section Follows

variable {α β : Type}

/-- When it ends with a value, the steps are what has happened, and the value has `P`. -/
def Follows (x : Converter α) (steps : List Step) (P : α → Prop) : Prop :=
  ∀ c a c', c.tally.mark ≤ c.tally.length → x.run c = .ok (a, c') →
    Tracks steps c.tally c'.tally ∧ P a

/-- The same from any mark. -/
def Calls (x : Converter α) (steps : List Step) (P : α → Prop) : Prop :=
  ∀ c a c', x.run c = .ok (a, c') → Tracks steps c.tally c'.tally ∧ P a

variable {x : Converter α} {f : α → Converter β} {steps rest : List Step} {P Q : α → Prop}
  {R : β → Prop}

theorem Calls.follows (h : Calls x steps P) : Follows x steps P :=
  fun c a c' _ hrun => h c a c' hrun

theorem Follows.mono (h : Follows x steps P) (hPQ : ∀ a, P a → Q a) : Follows x steps Q :=
  fun c a c' hc hrun => ⟨(h c a c' hc hrun).1, hPQ a (h c a c' hc hrun).2⟩

theorem Calls.mono (h : Calls x steps P) (hPQ : ∀ a, P a → Q a) : Calls x steps Q :=
  fun c a c' hrun => ⟨(h c a c' hrun).1, hPQ a (h c a c' hrun).2⟩

theorem Follows.pure {a : α} (h : P a) : Follows (pure a) [] P := by
  intro c b c' hc hrun
  obtain ⟨rfl, rfl⟩ := Prod.mk.inj (Except.ok.inj hrun)
  exact ⟨.nil hc, h⟩

theorem Follows.throw (e : JsException) : Follows (throw e : Converter α) steps P := by
  intro c b c' _ hrun
  cases hrun

theorem Follows.bind (hx : Follows x steps Q) (hf : ∀ a, Q a → Follows (f a) rest R) :
    Follows (x >>= f) (steps ++ rest) R := by
  intro c b c' hc hrun
  rw [StateT.run_bind] at hrun
  cases hfirst : x.run c with
  -- an exception ends the call, and nothing is said of it
  | error e =>
      rw [hfirst] at hrun
      cases hrun
  | ok r =>
      obtain ⟨a, c₁⟩ := r
      rw [hfirst] at hrun
      obtain ⟨htracks, ha⟩ := hx c a c₁ hc hfirst
      obtain ⟨htracks', hb⟩ := hf a ha c₁ b c' htracks.ordered hrun
      exact ⟨htracks.append htracks', hb⟩

/-- A statement without a step is passed over. -/
theorem Follows.then (hx : Follows x [] Q) (hf : ∀ a, Q a → Follows (f a) rest R) :
    Follows (x >>= f) rest R := hx.bind hf

/-- The last statement has no step. -/
theorem Follows.last (hx : Follows x steps Q) (hf : ∀ a, Q a → Follows (f a) [] R) :
    Follows (x >>= f) steps R := by
  have h := hx.bind hf
  rwa [List.append_nil] at h

theorem Follows.lift {e : Except JsException α} (h : ∀ a, e = .ok a → P a) :
    Follows (liftM e : Converter α) [] P := by
  intro c a c' hc hrun
  cases e with
  | error e => cases hrun
  | ok b =>
      obtain ⟨rfl, rfl⟩ := Prod.mk.inj (Except.ok.inj hrun)
      exact ⟨.nil hc, h _ rfl⟩

theorem follows_push (e : ConverterError) : Follows (push e) [.fault] fun _ => True := by
  intro c a c' hc hrun
  obtain ⟨rfl, rfl⟩ := Prod.mk.inj (Except.ok.inj hrun)
  have hlog := Tracks.log hc
  have htally : ConverterErrors.tally { c with errors := c.errors ++ [e] } =
      { c.tally with length := c.tally.length + 1 } := by
    simp [ConverterErrors.tally]
  rw [htally]
  exact ⟨hlog, trivial⟩

theorem follows_get : Follows (get : Converter ConverterErrors) [] fun _ => True := by
  intro c a c' hc hrun
  obtain ⟨rfl, rfl⟩ := Prod.mk.inj (Except.ok.inj hrun)
  exact ⟨.nil hc, trivial⟩

theorem follows_pushAt (errortype : ConverterErrorType) (propertyName debuginfo : String) :
    Follows (pushAt errortype propertyName debuginfo) [.fault] fun _ => True :=
  ((follows_get.then (R := fun _ => True) fun _ _ => .pure trivial).then
    fun _ _ => follows_push _ : Follows (location propertyName >>= _) _ _)

theorem follows_pushHere (errortype : ConverterErrorType) (debuginfo : String) :
    Follows (pushHere errortype debuginfo) [.fault] fun _ => True :=
  follows_get.then fun _ _ => follows_push _

theorem follows_hasNewErrors : Follows hasNewErrors [] fun _ => True :=
  follows_get.then fun _ _ => .pure trivial

/-- One fault, or none. -/
def faultIf (b : Bool) : List Step := if b then [.fault] else []

theorem quiet_faultIf {b : Bool} : Quiet (faultIf b) ↔ b = false := by
  cases b <;> simp [faultIf, Quiet]

theorem follows_unlessOptional {error : Converter Unit} (optional : Bool)
    (h : Follows error [.fault] fun _ => True) :
    Follows (unlessOptional optional error) (faultIf !optional) fun _ => True := by
  cases optional with
  | true => exact .pure trivial
  | false => exact h

/-- The result is not returned when the list reaches past the mark. -/
theorem follows_validated {u : α} {encoding : Bool} {n : String} (hx : Follows x steps P)
    {c c' : ConverterErrors} {a : α} (hc : c.tally.mark ≤ c.tally.length)
    (hnew : c.tally.new = false)
    (hrun : (x >>= fun t => validateResult encoding n >>= fun ok =>
      if ok = true then pure t else pure u).run c = .ok (a, c')) :
    Tracks steps c.tally c'.tally ∧ (Loud steps ∧ a = u ∨ ¬Loud steps ∧ P a) := by
  rw [StateT.run_bind] at hrun
  cases hfirst : x.run c with
  | error e =>
      rw [hfirst] at hrun
      cases hrun
  | ok r =>
      obtain ⟨t, c₁⟩ := r
      rw [hfirst] at hrun
      obtain ⟨htracks, ht⟩ := hx c t c₁ hc hfirst
      have hloud := htracks.new
      rw [hnew] at hloud
      by_cases hlate : c₁.errors.length > c₁.lastStoredErrorCount
      · have hnew₁ : c₁.tally.new = true := decide_eq_true hlate
        have hvalid : (validateResult encoding n).run c₁ = .ok (false, { c₁ with
            errors := ⟨none, none, "Errors while " ++ (if encoding then "encoding" else "decoding")
              ++ " " ++ n⟩ :: c₁.errors }) := by
          simp only [validateResult, hasNewErrors, bind_assoc, pure_bind]
          simp only [StateT.run_bind, StateT.run_get, pure_bind, hlate, decide_true, if_true]
          rfl
        change StateT.run (validateResult encoding n >>= fun ok =>
          if ok = true then pure t else pure u) c₁ = .ok (a, c') at hrun
        rw [StateT.run_bind, hvalid] at hrun
        obtain ⟨rfl, rfl⟩ := Prod.mk.inj (Except.ok.inj hrun)
        -- the error on top is one more where there is one already
        have hfault := fault_mem_of_unseen (hloud.symm.trans hnew₁)
        exact ⟨htracks.more hnew₁ hfault, .inl ⟨hloud.symm.trans hnew₁, rfl⟩⟩
      · have hnew₁ : c₁.tally.new = false := decide_eq_false hlate
        have hvalid : (validateResult encoding n).run c₁ = .ok (true, c₁) := by
          simp only [validateResult, hasNewErrors, bind_assoc, pure_bind]
          simp only [StateT.run_bind, StateT.run_get, pure_bind, hlate, decide_false,
            Bool.false_eq_true, if_false]
          rfl
        change StateT.run (validateResult encoding n >>= fun ok =>
          if ok = true then pure t else pure u) c₁ = .ok (a, c') at hrun
        rw [StateT.run_bind, hvalid] at hrun
        obtain ⟨rfl, rfl⟩ := Prod.mk.inj (Except.ok.inj hrun)
        refine ⟨htracks, .inr ⟨?_, ht⟩⟩
        rw [Loud, ← hloud, hnew₁]
        decide

/-- A call sets the mark, wherever it has been. -/
theorem calls_of_follows {u : α} {encoding : Bool} {n : String} {name : Option String}
    (hx : Follows x steps P) :
    Calls (storeState >>= fun _ => addContext name n >>= fun _ => x >>= fun t =>
      validateResult encoding n >>= fun ok => if ok = true then pure t else pure u)
      (.enter :: steps) fun a => Loud steps ∧ a = u ∨ ¬Loud steps ∧ P a := by
  intro c a c' hrun
  have hvalid := @follows_validated α x steps P u encoding n hx
    { c with
      lastStoredErrorCount := c.errors.length
      context := (if c.context = "" then "" else c.context ++ "::") ++ name.getD n } c' a
    (Nat.le_refl _) (by simp [ConverterErrors.tally, Tally.new]) hrun
  exact ⟨.enter hvalid.1, hvalid.2⟩

/-- What a call without a list does is lost. -/
theorem follows_withOwnErrors (hx : Follows x steps P) :
    Follows (withOwnErrors x) (apart steps) P := by
  intro c a c' hc hrun
  -- the list of its own is empty at first, and what it holds at the end counts as lost
  cases hfirst : x.run { c with errors := [], lastStoredErrorCount := 0 } with
  | error e =>
      have herror : (withOwnErrors x).run c = .error e := by
        change (x.run _ >>= _) = _
        rw [hfirst]
        rfl
      rw [herror] at hrun
      cases hrun
  | ok r =>
      obtain ⟨b, c₁⟩ := r
      have hok : (withOwnErrors x).run c = .ok (b, { c with
          context := c₁.context, elsewhere := c₁.elsewhere ++ c₁.errors }) := by
        change (x.run _ >>= _) = _
        rw [hfirst]
        rfl
      rw [hok] at hrun
      obtain ⟨rfl, rfl⟩ := Prod.mk.inj (Except.ok.inj hrun)
      obtain ⟨htracks, hP⟩ := hx _ _ _ (Nat.le_refl _) hfirst
      have hown := Tracks.own hc htracks
      have htally : ConverterErrors.tally { c with
          context := c₁.context, elsewhere := c₁.elsewhere ++ c₁.errors } =
          { c.tally with elsewhere := c₁.tally.elsewhere + c₁.tally.length } := by
        simp [ConverterErrors.tally]
      rw [htally]
      exact ⟨hown, hP⟩

end Follows

/-! ### Value or nothing -/

section Exact

variable {α : Type} {x : Converter α} {steps : List Step} {P : α → Prop}

theorem Calls.lift_then {e : Except JsException Unit} (h : Calls x steps P) :
    Calls (liftM e >>= fun _ : Unit => x) steps P := by
  intro c a c' hrun
  cases e with
  | error e => cases hrun
  | ok u => exact h c a c' hrun

/-- No error has been recorded between two states, in the list or elsewhere. -/
def Unrecorded (c c' : ConverterErrors) : Prop :=
  c'.errors.length = c.errors.length ∧ c'.elsewhere.length = c.elsewhere.length

theorem unrecorded_iff {c c' : ConverterErrors} (h : Tracks steps c.tally c'.tally) :
    Unrecorded c c' ↔ Quiet steps := and_congr h.fault h.lost

/-- The condition on the steps and the completeness of an input. -/
def Sound (steps : List Step) (complete : Prop) : Prop := Loud steps ∨ Quiet steps ∧ complete

theorem unrecorded_and_iff {made whole complete : Prop} {c c' : ConverterErrors}
    (htracks : Tracks steps c.tally c'.tally) (hmade : made) (hloud : Loud steps → ¬made)
    (hwhole : Quiet steps → (whole ↔ complete)) :
    Unrecorded c c' ∧ whole ↔ Sound steps complete := by
  rw [unrecorded_iff htracks, Sound]
  constructor
  · rintro ⟨hquiet, h⟩
    exact .inr ⟨hquiet, (hwhole hquiet).1 h⟩
  · rintro (h | ⟨hquiet, h⟩)
    · exact absurd hmade (hloud h)
    · exact ⟨hquiet, (hwhole hquiet).2 h⟩

end Exact

/-! ### The checks -/

/-- `validateParam` records an error. -/
def paramFault (data : JsValue) (propertyName : String) (expectedType : ExpectedType)
    (optional : Bool) : Bool :=
  match data with
  | .object get =>
      match get propertyName with
      | .undefined => !optional
      | .null => expectedType ≠ .null && !optional
      | property => !fits expectedType property
  | _ => !optional

/-- A member that is not there has to be optional. -/
theorem member_of_not_paramFault {data : JsValue} {propertyName : String}
    {expectedType : ExpectedType}
    (h : paramFault data propertyName expectedType false = false) :
    (data.member propertyName).isUndefined = false := by
  cases data with
  | object get =>
      rw [paramFault] at h
      cases hproperty : get propertyName with
      | undefined =>
          rw [hproperty] at h
          cases h
      | _ => simp only [JsValue.member, hproperty, JsValue.isUndefined]
  | _ => cases h

/-- `validateParam` finds a value that can be used. -/
def paramPasses (data : JsValue) (propertyName : String) (expectedType : ExpectedType) : Bool :=
  match data with
  | .object get =>
      match get propertyName with
      | .undefined => false
      | .null => expectedType = .null
      | property => fits expectedType property
  | _ => false

theorem follows_validateParam (data : JsValue) (propertyName : String)
    (expectedType : ExpectedType) (optional : Bool) :
    Follows (validateParam data propertyName expectedType optional)
      (faultIf (paramFault data propertyName expectedType optional))
      fun ok => ok = paramPasses data propertyName expectedType := by
  have hmissing (errortype : ConverterErrorType) (debuginfo : String) :=
    (follows_unlessOptional optional (follows_pushAt errortype propertyName debuginfo)).last
      (f := fun _ => pure false) (R := fun ok => ok = false) fun _ _ => .pure rfl
  cases data with
  | object get =>
      rw [validateParam, paramFault, paramPasses]
      cases hproperty : get propertyName with
      | undefined => exact hmissing _ _
      | null =>
          by_cases hnull : expectedType = .null
          · simp only [hnull, if_true]
            exact .pure rfl
          · simp only [hnull, if_false, ne_eq, not_false_eq_true, decide_true, Bool.true_and,
              decide_false]
            exact hmissing _ _
      | _ =>
          simp only
          split
          · next hfits =>
              rw [hfits]
              exact .pure rfl
          · next hfits =>
              rw [Bool.not_eq_true] at hfits
              rw [hfits]
              exact (follows_pushAt _ _ _).last fun _ _ => .pure rfl
  | _ => exact hmissing _ _

/-- The types which `validateParamType` lets pass. -/
def typeFits (expectedType : ExpectedType) (property : JsValue) : Bool :=
  match expectedType with
  | .uint8Array => fits .uint8Array property
  | .date => fits .date property
  | .null => property.typeof = "object"
  | .flag _ => false
  | expectedType => property.typeof = expectedType.text

/-- The errors of `validateParamType`. -/
def typeSteps (property : JsValue) (expectedType : ExpectedType) (optional : Bool) : List Step :=
  if property.isUndefined && !optional then [.fault, .fault]
  else faultIf !typeFits expectedType property

theorem follows_validateParamType (property : JsValue) (propertyName : String)
    (expectedType : ExpectedType) (optional : Bool) :
    Follows (validateParamType property propertyName expectedType optional)
      (typeSteps property expectedType optional)
      fun ok => ok = true ↔ Quiet (typeSteps property expectedType optional) := by
  rw [typeSteps]
  by_cases hmissing : (property.isUndefined && !optional) = true
  · rw [if_pos hmissing]
    unfold validateParamType
    rw [if_pos hmissing]
    exact (follows_pushAt _ _ _).bind fun _ _ => (follows_pushAt _ _ _).last fun _ _ =>
      .pure (iff_of_false (by decide) (not_quiet_fault _))
  · rw [if_neg hmissing]
    have hresult : Follows (if typeFits expectedType property = true then pure true else do
        pushAt .propertyTypeMismatch propertyName (mismatch expectedType property)
        return false) (faultIf !typeFits expectedType property)
        fun ok => ok = true ↔ Quiet (faultIf !typeFits expectedType property) := by
      cases hfits : typeFits expectedType property with
      | true => exact .pure (iff_of_true rfl quiet_nil)
      | false =>
          exact (follows_pushAt _ _ _).last fun _ _ =>
            .pure (iff_of_false (by decide) (not_quiet_fault _))
    unfold validateParamType
    rw [if_neg hmissing]
    cases expectedType <;> exact hresult

/-! ### Lists -/

section Lists

variable {α β : Type} {kept : α → Bool} {a : α} {rest : List α} {b : β} {l t : List β}

/-- An element that is kept is one more. -/
theorem length_of_kept (ha : kept a = true)
    (h : l.length = (t ++ [b]).length + (rest.filter kept).length) :
    l.length = t.length + ((a :: rest).filter kept).length := by
  rw [h, List.length_append, List.filter_cons_of_pos ha]
  simp only [List.length_cons, List.length_nil]
  omega

theorem length_of_dropped (ha : kept a = false)
    (h : l.length = t.length + (rest.filter kept).length) :
    l.length = t.length + ((a :: rest).filter kept).length := by
  rw [h, List.filter_cons_of_neg (by rw [ha]; decide)]

end Lists

end Converter

end Esnacc.Ts
